import KHypervisor.Vdev.MapInverse

/-!
# Forwarding of shared peripheral interrupts

`is_guest_spi` sends a physical interrupt to every running virtual machine whose first virtual
processor has a virtual interrupt for it in its map. The guests of a machine decide by their writes
to the enable registers what is in the map, though not in the way that they mean to.
-/

namespace KHypervisor

open BitScan Run

/-- A virtual machine as `is_guest_spi` finds it in the list: its number, its state and its first
virtual processor. -/
structure SpiVm where
  vmid : VmId
  state : VmcbState
  vcpu0 : Vcpu

/-- A call of `virq_hw->forward_irq`, with the machine that the virtual processor is of. -/
structure ForwardIrq where
  vmid : VmId
  vcpu : Vcpu
  virq : U32
  pirq : U32
  hw : U8

/-- `INJECT_SW`. -/
def injectSw : U8 := 0

/-- A turn of the loop of `is_guest_spi`. -/
def spiTurn (irq : U32) (vm : SpiVm) : Option (List ForwardIrq) :=
  (pirqToVirq vm.vcpu0 irq).map fun virq =>
    if virq = virqInvalid ∨ vm.state ≠ .running then []
    else [⟨vm.vmid, vm.vcpu0, virq, irq, injectSw⟩]

/-- `is_guest_spi`. There is no result where it leaves a map. -/
def isGuestSpi (irq : U32) (vms : List SpiVm) : Option (List ForwardIrq) :=
  (vms.mapM (spiTurn irq)).map List.flatten

/-! ## What the guests mean -/

instance (e : EnableWrite) (x : Fin 1024) : Decidable (e.Sets x) :=
  inferInstanceAs (Decidable (_ ∧ _))

/-- The enable bit that the reference model has for an interrupt after the writes. -/
def refEnabled (es : List EnableWrite) (x : Fin 1024) : Bool :=
  es.foldl (fun enabled e => if e.Names x then e.set else enabled) false

/-- The virtual interrupt that a physical one stands for in a new virtual machine. -/
def mappedVirq (vserial : Bool) (vmid : VmId) (irq : Fin 1024) : Option (Fin 1024) :=
  match serialMap vserial vmid with
  | none => some irq
  | some (q, x) => if irq = q then some x else if irq = x then none else some irq

/-- The machine is sent the virtual interrupt that `irq` stands for if that is enabled, and nothing
otherwise. -/
def SpiLaw (vserial : Bool) (es : List EnableWrite) (irq : Fin 1024) (vms : List SpiVm)
    (vm : SpiVm) : Prop :=
  (isGuestSpi (BitVec.ofNat 32 irq) vms).map (List.filter fun f => f.vmid = vm.vmid) =
    some (((mappedVirq vserial vm.vmid irq).filter (refEnabled es)).toList.map fun x =>
      ⟨vm.vmid, vm.vcpu0, BitVec.ofNat 32 x, BitVec.ofNat 32 irq, injectSw⟩)

/-! ## What they get -/

/-- The processor that is the first to enable an interrupt, and the number of its write. -/
def firstEnabling (es : List EnableWrite) (x : Fin 1024) : Option (Fin 8 × ℕ) :=
  (es.zipIdx.find? fun e => e.1.Sets x).map fun e => (e.1.vcpuid, e.2)

/-- The first processor of the machine was the first of all to enable the interrupt. -/
def EnabledByFirst (es : List EnableWrite) (x : Fin 1024) : Prop :=
  ∃ i, firstEnabling es x = some (0, i)

/-- The first processor of the machine has enabled the physical interrupt `q` of the serial line,
and has not enabled the virtual one since. -/
def Redirected (es : List EnableWrite) (q x : Fin 1024) : Prop :=
  ∃ i, firstEnabling es q = some (0, i) ∧ ∀ j, firstEnabling es x = some (0, j) → j < i

/-- The serial line must be enabled and not redirected. Any other interrupt must have been enabled
by the first processor before it was by another, exactly if it is enabled in the end. -/
def SpiCondition (vserial : Bool) (vmid : VmId) (es : List EnableWrite) (irq : Fin 1024) : Prop :=
  match serialMap vserial vmid with
  | none => refEnabled es irq = true ↔ EnabledByFirst es irq
  | some (q, x) =>
      if irq = q then refEnabled es x = true ∧ ¬ Redirected es q x
      else irq = x ∨ (refEnabled es irq = true ↔ EnabledByFirst es irq)

theorem firstEnabling_concat (es : List EnableWrite) (e : EnableWrite) (x : Fin 1024) :
    firstEnabling (es ++ [e]) x =
      (firstEnabling es x).or (if e.Sets x then some (e.vcpuid, es.length) else none) := by
  rw [firstEnabling, List.zipIdx_append, List.find?_append, firstEnabling]
  cases es.zipIdx.find? fun e => e.1.Sets x with
  | some e => rfl
  | none =>
      by_cases he : e.Sets x <;> simp [he]

theorem lt_length_of_firstEnabling {es : List EnableWrite} {x : Fin 1024} {k : Fin 8} {i : ℕ}
    (h : firstEnabling es x = some (k, i)) : i < es.length := by
  obtain ⟨e, he, heq⟩ := Option.map_eq_some_iff.mp h
  have hmem := List.mem_of_find?_eq_some he
  obtain ⟨e, j⟩ := e
  rw [List.mk_mem_zipIdx_iff_getElem?] at hmem
  obtain ⟨hlt, -⟩ := List.getElem?_eq_some_iff.mp hmem
  rwa [← (Prod.mk.inj heq).2]

/-- The write of the first processor that enables an interrupt in the map. -/
def EnableWrite.Enables (es : List EnableWrite) (e : EnableWrite) (x : Fin 1024) : Prop :=
  e.vcpuid = 0 ∧ e.Sets x ∧ firstEnabling es x = none

theorem enabledByFirst_concat {es : List EnableWrite} {e : EnableWrite} {x : Fin 1024} :
    EnabledByFirst (es ++ [e]) x ↔ EnabledByFirst es x ∨ e.Enables es x := by
  rw [EnabledByFirst, EnabledByFirst, EnableWrite.Enables, firstEnabling_concat]
  cases firstEnabling es x with
  | some first => simp
  | none => by_cases he : e.Sets x <;> simp [he]

theorem redirected_concat {es : List EnableWrite} {e : EnableWrite} {q x : Fin 1024} :
    Redirected (es ++ [e]) q x ↔ (Redirected es q x ∨ e.Enables es q) ∧ ¬ e.Enables es x := by
  constructor
  · rintro ⟨i, hq, hx⟩
    have hi := lt_length_of_firstEnabling hq
    rw [List.length_append, List.length_singleton] at hi
    rw [firstEnabling_concat] at hq hx
    refine ⟨?_, fun hnew => ?_⟩
    · cases hold : firstEnabling es q with
      | none =>
          right
          rw [hold, Option.none_or] at hq
          by_cases hsets : e.Sets q
          · rw [if_pos hsets, Option.some.injEq, Prod.mk.injEq] at hq
            exact ⟨hq.1, hsets, hold⟩
          · simp [hsets] at hq
      | some first =>
          rw [hold, Option.some_or] at hq
          refine .inl ⟨i, hold.trans hq, fun j hj => hx j ?_⟩
          rw [hj, Option.some_or]
    · have hlast := hx es.length (by
        rw [hnew.2.2, Option.none_or, if_pos hnew.2.1, hnew.1])
      omega
  · rintro ⟨hq, hx⟩
    have hkeep : ∀ j, firstEnabling (es ++ [e]) x = some (0, j) →
        firstEnabling es x = some (0, j) := by
      intro j hj
      rw [firstEnabling_concat] at hj
      cases hold : firstEnabling es x with
      | some first => rwa [hold, Option.some_or] at hj
      | none =>
          rw [hold, Option.none_or] at hj
          by_cases hsets : e.Sets x
          · rw [if_pos hsets, Option.some.injEq, Prod.mk.injEq] at hj
            exact absurd ⟨hj.1, hsets, hold⟩ hx
          · simp [hsets] at hj
    rcases hq with ⟨i, hq, hbefore⟩ | ⟨hcpu, hsets, hnone⟩
    · refine ⟨i, ?_, fun j hj => hbefore j (hkeep j hj)⟩
      rw [firstEnabling_concat, hq, Option.some_or]
    · refine ⟨es.length, ?_, fun j hj => lt_length_of_firstEnabling (hkeep j hj)⟩
      rw [firstEnabling_concat, hnone, Option.none_or, if_pos hsets, hcpu]

/-! ## The map of the first processor -/

variable {vserial : Bool} {vmid : VmId} {env : VgicdEnv} {σ σ' : VgicdState} {e : EnableWrite}
  {es : List EnableWrite}

theorem virqAt_lt {n : Fin 32} {b c : ℕ} (hb : b < 32) (hc : c < b) : virqAt n c < virqAt n b := by
  rw [Fin.lt_def, virqAt_val n hb, virqAt_val n (hc.trans hb)]
  omega

theorem pairwise_freshVirqs (σ : VgicdState) (e : EnableWrite) :
    (σ.freshVirqs e).Pairwise (· > ·) := by
  rw [VgicdState.freshVirqs, List.pairwise_map]
  refine (pairwise_bitsBelow _ 32).imp_of_mem fun hb _ hlt => ?_
  exact virqAt_lt (mem_bitsBelow.mp hb).1 hlt

/-- Of the interrupts of a descending list, the least that stands for `p` is the last. -/
theorem lastMappedTo_eq_some {v : Vcpu} {xs : List (Fin 1024)} (hxs : xs.Pairwise (· > ·))
    {z p : Fin 1024} (hz : z ∈ xs) (hzp : v.pirqOf z = BitVec.ofNat 32 p)
    (hleast : ∀ y ∈ xs, v.pirqOf y = BitVec.ofNat 32 p → z ≤ y) :
    v.lastMappedTo xs p = some z := by
  obtain ⟨above, below, rfl⟩ := List.append_of_mem hz
  have hlt := (List.pairwise_append.mp hxs).2.1
  rw [Vcpu.lastMappedTo, List.find?_eq_some_iff_append]
  refine ⟨by simpa using hzp, below.reverse, above.reverse, by simp, fun y hy => ?_⟩
  have hmem := List.mem_reverse.mp hy
  have hyz : z > y := List.rel_of_pairwise_cons hlt hmem
  simp only [Bool.not_eq_true', decide_eq_false_iff_not]
  intro hyp
  exact absurd (hleast y (List.mem_append_right _ (List.mem_cons_of_mem _ hmem)) hyp)
    (not_le_of_gt hyz)

theorem lastMappedTo_eq_none {v : Vcpu} {xs : List (Fin 1024)} {p : Fin 1024}
    (h : ∀ y ∈ xs, v.pirqOf y ≠ BitVec.ofNat 32 p) : v.lastMappedTo xs p = none := by
  refine List.find?_eq_none.mpr fun y hy => ?_
  simpa using h y (List.mem_reverse.mp hy)

/-- What holds of every reachable state: the interrupts stand for what they stood for in the
beginning, and a bit of an enabling register is set if some write has enabled it. -/
structure SpiBits (vserial : Bool) (vmid : VmId) (es : List EnableWrite) (σ : VgicdState) :
    Prop where
  stands : ∀ k x, (σ.vcpu k).pirqOf x = BitVec.ofNat 32 (physOf vserial vmid x)
  bit : ∀ x : Fin 1024, 32 ≤ x.val → ∀ k, σ.gicd.bit true k x = (firstEnabling es x).isSome

theorem SpiBits.mapsOk (h : SpiBits vserial vmid es σ) : σ.MapsOk :=
  fun k => mapOk_of_physOf (h.stands k)

theorem SpiBits.step (h : SpiBits vserial vmid es σ) (hw : EnableWritten σ e σ') :
    SpiBits vserial vmid (es ++ [e]) σ' := by
  refine ⟨fun k x => ?_, fun x hx k => ?_⟩
  · rw [hw.pirqOf h.mapsOk, h.stands]
  · have hshared : wordOf x ≠ 0 := by
      rw [Ne, Fin.ext_iff, wordOf, Fin.val_zero]
      dsimp only
      omega
    have hsets : (true = e.set ∧ (wordOf x = 0 → k = e.vcpuid) ∧ e.Names x) ↔ e.Sets x :=
      ⟨fun hnew => ⟨hnew.1.symm, hnew.2.2⟩,
        fun hnew => ⟨hnew.1.symm, fun hzero => absurd hzero hshared, hnew.2⟩⟩
    rw [hw.bit, h.bit x hx, firstEnabling_concat]
    simp only [hsets]
    by_cases he : e.Sets x <;> simp [he]

theorem SpiBits.mem_freshVirqs (h : SpiBits vserial vmid es σ) (hcpu : e.vcpuid = 0)
    (hset : e.set = true) {x : Fin 1024} (hx : 32 ≤ x.val) :
    x ∈ σ.freshVirqs e ↔ e.Enables es x := by
  rw [KHypervisor.mem_freshVirqs, hset, h.bit x hx, EnableWrite.Enables, EnableWrite.Sets]
  simp [hcpu, hset]

/-- A write that enables nothing that stands for `p` leaves the entry of `p`. -/
theorem SpiBits.virq_eq (h : SpiBits vserial vmid es σ) (hw : EnableWritten σ e σ') {p : Fin 1024}
    (hspi : ∀ x, physOf vserial vmid x = p → 32 ≤ x.val)
    (hnone : ∀ x, physOf vserial vmid x = p → ¬ e.Enables es x) :
    ((σ'.vcpu 0).map p).virq = ((σ.vcpu 0).map p).virq := by
  by_cases hcpu : e.vcpuid = 0
  · have hs := hw.switched
    rw [hcpu] at hs
    cases hset : e.set with
    | false =>
        rw [hset] at hs
        exact (hs.virq p).trans (if_neg Bool.false_ne_true)
    | true =>
        rw [hset] at hs
        have hlast : (σ.vcpu 0).lastMappedTo (σ.freshVirqs e) p = none := by
          refine lastMappedTo_eq_none fun y hy hyp => ?_
          rw [h.stands, ofNat_fin_inj] at hyp
          exact hnone y hyp ((h.mem_freshVirqs hcpu hset (hspi y hyp)).mp hy)
        exact (hs.virq p).trans (by rw [if_pos rfl, Fin.val_zero, hlast]; rfl)
  · rw [hw.other 0 fun hzero => hcpu (Fin.ext hzero.symm)]

/-- A write that enables something that stands for `p` enters the least of it for `p`. -/
theorem SpiBits.virq_eq_of_enables (h : SpiBits vserial vmid es σ) (hw : EnableWritten σ e σ')
    {p z : Fin 1024} (hspi : ∀ x, physOf vserial vmid x = p → 32 ≤ x.val)
    (hz : e.Enables es z) (hzp : physOf vserial vmid z = p)
    (hleast : ∀ y, e.Enables es y → physOf vserial vmid y = p → z ≤ y) :
    ((σ'.vcpu 0).map p).virq = BitVec.ofNat 32 z := by
  have hcpu := hz.1
  have hset := hz.2.1.1
  have hs := hw.switched
  rw [hcpu, hset] at hs
  have hlast : (σ.vcpu 0).lastMappedTo (σ.freshVirqs e) p = some z := by
    refine lastMappedTo_eq_some (pairwise_freshVirqs σ e)
      ((h.mem_freshVirqs hcpu hset (hspi z hzp)).mpr hz) (by rw [h.stands, hzp]) fun y hy hyp => ?_
    rw [h.stands, ofNat_fin_inj] at hyp
    exact hleast y ((h.mem_freshVirqs hcpu hset (hspi y hyp)).mp hy) hyp
  exact (hs.virq p).trans (by rw [if_pos rfl, Fin.val_zero, hlast]; rfl)

theorem serialMap_bounds {q x : Fin 1024} (h : serialMap vserial vmid = some (q, x)) :
    32 ≤ q.val ∧ 32 ≤ x.val ∧ x ≤ q := by
  have hline : (q = 37 ∨ q = 39 ∨ q = 40) ∧ x = 37 := by
    unfold serialMap at h
    split at h
    · split at h <;> simp at h <;> simp [← h.1, ← h.2]
    · simp at h
  obtain ⟨hq, rfl⟩ := hline
  rcases hq with rfl | rfl | rfl <;> decide

theorem physOf_serial {q x : Fin 1024} (h : serialMap vserial vmid = some (q, x)) (y : Fin 1024) :
    physOf vserial vmid y = if y = x then q else y := by
  rw [physOf, h]

theorem physOf_eq_iff {p : Fin 1024}
    (hp : ∀ q x, serialMap vserial vmid = some (q, x) → p ≠ q ∧ p ≠ x) (y : Fin 1024) :
    physOf vserial vmid y = p ↔ y = p := by
  cases hserial : serialMap vserial vmid with
  | none => rw [physOf, hserial]
  | some pair =>
      obtain ⟨hq, hx⟩ := hp pair.1 pair.2 hserial
      rw [physOf_serial hserial]
      by_cases hy : y = pair.2
      · rw [if_pos hy, hy]
        exact ⟨fun h => absurd h.symm hq, fun h => absurd h.symm hx⟩
      · rw [if_neg hy]

/-- The entries of the first processor's map that `is_guest_spi` reads. -/
structure SpiInv (vserial : Bool) (vmid : VmId) (es : List EnableWrite) (σ : VgicdState) :
    Prop where
  bits : SpiBits vserial vmid es σ
  own : ∀ p : Fin 1024, 32 ≤ p.val →
    (∀ q x, serialMap vserial vmid = some (q, x) → p ≠ q ∧ p ≠ x) →
    (EnabledByFirst es p → ((σ.vcpu 0).map p).virq = BitVec.ofNat 32 p) ∧
      (¬ EnabledByFirst es p → ((σ.vcpu 0).map p).virq = virqInvalid)
  line : ∀ q x, serialMap vserial vmid = some (q, x) →
    (Redirected es q x → ((σ.vcpu 0).map q).virq = BitVec.ofNat 32 q) ∧
      (¬ Redirected es q x → ((σ.vcpu 0).map q).virq = BitVec.ofNat 32 x)
  taken : ∀ q x, serialMap vserial vmid = some (q, x) → x ≠ q →
    ((σ.vcpu 0).map x).virq = virqInvalid

theorem SpiInv.step_own (h : SpiInv vserial vmid es σ) (hw : EnableWritten σ e σ') {p : Fin 1024}
    (hspi : 32 ≤ p.val) (hp : ∀ q x, serialMap vserial vmid = some (q, x) → p ≠ q ∧ p ≠ x) :
    (EnabledByFirst (es ++ [e]) p → ((σ'.vcpu 0).map p).virq = BitVec.ofNat 32 p) ∧
      (¬ EnabledByFirst (es ++ [e]) p → ((σ'.vcpu 0).map p).virq = virqInvalid) := by
  have hstands := physOf_eq_iff hp
  have hspi' : ∀ x, physOf vserial vmid x = p → 32 ≤ x.val := fun x hx => by
    rwa [(hstands x).mp hx]
  rw [enabledByFirst_concat]
  by_cases he : e.Enables es p
  · have hvirq := h.bits.virq_eq_of_enables hw hspi' he ((hstands p).mpr rfl) fun y _ hy =>
      le_of_eq ((hstands y).mp hy).symm
    exact ⟨fun _ => hvirq, fun hnot => absurd (.inr he) hnot⟩
  · have hvirq := h.bits.virq_eq hw hspi' fun y hy => by rwa [(hstands y).mp hy]
    rw [hvirq, or_iff_left he]
    exact h.own p hspi hp

theorem SpiInv.step_line (h : SpiInv vserial vmid es σ) (hw : EnableWritten σ e σ')
    {q x : Fin 1024} (hserial : serialMap vserial vmid = some (q, x)) :
    (Redirected (es ++ [e]) q x → ((σ'.vcpu 0).map q).virq = BitVec.ofNat 32 q) ∧
      (¬ Redirected (es ++ [e]) q x → ((σ'.vcpu 0).map q).virq = BitVec.ofNat 32 x) := by
  obtain ⟨hq, hx, hle⟩ := serialMap_bounds hserial
  have hphys := physOf_serial hserial
  have hstands : ∀ y, physOf vserial vmid y = q → y = x ∨ y = q := by
    intro y hy
    rw [hphys] at hy
    by_cases hyx : y = x
    · exact .inl hyx
    · rw [if_neg hyx] at hy
      exact .inr hy
  have hspi : ∀ y, physOf vserial vmid y = q → 32 ≤ y.val := fun y hy => by
    rcases hstands y hy with rfl | rfl
    · exact hx
    · exact hq
  have hxq : physOf vserial vmid x = q := by rw [hphys, if_pos rfl]
  rw [redirected_concat]
  by_cases hex : e.Enables es x
  · have hvirq := h.bits.virq_eq_of_enables hw hspi hex hxq fun y _ hy => by
      rcases hstands y hy with rfl | rfl
      · exact le_refl _
      · exact hle
    exact ⟨fun hred => absurd hex hred.2, fun _ => hvirq⟩
  · by_cases heq : e.Enables es q
    · have hne : q ≠ x := fun hsame => hex (hsame ▸ heq)
      have hvirq := h.bits.virq_eq_of_enables hw hspi heq (by rw [hphys, if_neg hne])
        fun y hy hyq => by
          rcases hstands y hyq with rfl | rfl
          · exact absurd hy hex
          · exact le_refl _
      exact ⟨fun _ => hvirq, fun hnot => absurd ⟨.inr heq, hex⟩ hnot⟩
    · have hvirq := h.bits.virq_eq hw hspi fun y hy => by
        rcases hstands y hy with rfl | rfl
        · exact hex
        · exact heq
      rw [hvirq, or_iff_left heq, and_iff_left hex]
      exact h.line q x hserial

theorem SpiInv.step (h : SpiInv vserial vmid es σ) (hw : EnableWritten σ e σ') :
    SpiInv vserial vmid (es ++ [e]) σ' := by
  refine ⟨h.bits.step hw, fun p hspi hp => h.step_own hw hspi hp,
    fun q x hserial => h.step_line hw hserial, fun q x hserial hne => ?_⟩
  have hstands : ∀ y, physOf vserial vmid y ≠ x := by
    intro y hy
    rw [physOf_serial hserial] at hy
    by_cases hyx : y = x
    · rw [if_pos hyx] at hy
      exact hne hy.symm
    · rw [if_neg hyx] at hy
      exact hyx hy
  rw [h.bits.virq_eq hw (fun y hy => absurd hy (hstands y)) fun y hy => absurd hy (hstands y)]
  exact h.taken q x hserial hne

theorem firstEnabling_nil (x : Fin 1024) : firstEnabling [] x = none := rfl

theorem spiInv_create (vserial : Bool) (vmid : VmId) (vcpu : ℕ → Vcpu) (typer iidr : U32) :
    SpiInv vserial vmid [] (.create vserial vmid vcpu typer iidr) := by
  have hvirq : ∀ p, (((VgicdState.create vserial vmid vcpu typer iidr).vcpu 0).map p).virq =
      match serialMap vserial vmid with
      | none => virqInvalid
      | some (q, x) => if p = q then BitVec.ofNat 32 x else virqInvalid :=
    initMap_virq vserial vmid
  refine ⟨⟨fun k => pirqOf_initMap rfl, fun x _ k => ?_⟩, fun p _ hp => ⟨?_, fun _ => ?_⟩,
    fun q x hserial => ⟨?_, fun _ => ?_⟩, fun q x hserial hne => ?_⟩
  · rw [Vgicd.bit, (create_unwritten vserial vmid vcpu typer iidr).word, firstEnabling_nil]
    simp
  · rintro ⟨i, hi⟩
    simp [firstEnabling_nil] at hi
  · rw [hvirq]
    cases hserial : serialMap vserial vmid with
    | none => rfl
    | some pair => exact if_neg (hp pair.1 pair.2 hserial).1
  · rintro ⟨i, hi, -⟩
    simp [firstEnabling_nil] at hi
  · rw [hvirq, hserial]
    exact if_pos rfl
  · rw [hvirq, hserial]
    exact if_neg hne

theorem spiInv_run {vcpu : ℕ → Vcpu} {typer iidr : U32}
    (h : run (vgicdStep env) (.create vserial vmid vcpu typer iidr) es = some σ) :
    SpiInv vserial vmid es σ :=
  run_induction (I := fun es σ => SpiInv vserial vmid es σ)
    (spiInv_create vserial vmid vcpu typer iidr)
    (fun _ _ _ _ _ hu hstep => hu.step (vgicdStep_written hu.bits.mapsOk hstep)) h

/-! ## What is sent -/

def spiSent (irq : Fin 1024) (vm : SpiVm) : List ForwardIrq :=
  if (vm.vcpu0.map irq).virq = virqInvalid ∨ vm.state ≠ .running then []
  else [⟨vm.vmid, vm.vcpu0, (vm.vcpu0.map irq).virq, BitVec.ofNat 32 irq, injectSw⟩]

theorem spiTurn_eq (irq : Fin 1024) (vm : SpiVm) :
    spiTurn (BitVec.ofNat 32 irq) vm = some (spiSent irq vm) := by
  rw [spiTurn, pirqToVirq, mapIndex_ofNat]
  rfl

theorem isGuestSpi_eq (irq : Fin 1024) (vms : List SpiVm) :
    isGuestSpi (BitVec.ofNat 32 irq) vms = some (vms.flatMap (spiSent irq)) := by
  have hturns : vms.mapM (spiTurn (BitVec.ofNat 32 irq)) = some (vms.map (spiSent irq)) := by
    induction vms with
    | nil => rfl
    | cons vm vms ih =>
        rw [List.mapM_cons, spiTurn_eq, ih]
        rfl
  rw [isGuestSpi, hturns, Option.map_some, List.flatMap_def]

theorem vmid_of_mem_spiSent {irq : Fin 1024} {vm : SpiVm} {f : ForwardIrq}
    (h : f ∈ spiSent irq vm) : f.vmid = vm.vmid := by
  rw [spiSent] at h
  split at h
  · exact absurd h List.not_mem_nil
  · rw [List.mem_singleton.mp h]

theorem filter_flatMap_spiSent (irq : Fin 1024) {vms : List SpiVm}
    (hnodup : (vms.map SpiVm.vmid).Nodup) {vm : SpiVm} (hvm : vm ∈ vms) :
    (vms.flatMap (spiSent irq)).filter (fun f => f.vmid = vm.vmid) = spiSent irq vm := by
  have hsame : ∀ w, (spiSent irq w).filter (fun f => f.vmid = vm.vmid) =
      if w.vmid = vm.vmid then spiSent irq w else [] := by
    intro w
    by_cases hw : w.vmid = vm.vmid
    · rw [if_pos hw, List.filter_eq_self]
      intro f hf
      simpa [hw] using vmid_of_mem_spiSent hf
    · rw [if_neg hw, List.filter_eq_nil_iff]
      intro f hf
      simpa [vmid_of_mem_spiSent hf] using hw
  rw [List.filter_flatMap]
  simp only [hsame]
  induction vms with
  | nil => exact absurd hvm List.not_mem_nil
  | cons w vms ih =>
      rw [List.map_cons, List.nodup_cons] at hnodup
      rw [List.flatMap_cons]
      by_cases hw : w.vmid = vm.vmid
      · have hrest : ∀ u ∈ vms, u.vmid ≠ vm.vmid := fun u hu hsame =>
          hnodup.1 (List.mem_map.mpr ⟨u, hu, hsame.trans hw.symm⟩)
        have heq : vm = w := by
          rcases List.mem_cons.mp hvm with rfl | hmem
          · rfl
          · exact absurd rfl (hrest vm hmem)
        rw [if_pos hw, heq, List.flatMap_eq_nil_iff.mpr, List.append_nil]
        intro u hu
        exact if_neg (heq ▸ hrest u hu)
      · have hmem : vm ∈ vms := by
          rcases List.mem_cons.mp hvm with rfl | hmem
          · exact absurd rfl hw
          · exact hmem
        rw [if_neg hw, List.nil_append, ih hnodup.2 hmem]

/-- A running machine is sent the virtual interrupt `x`, or nothing, if that is what its first
processor has for the physical one. -/
theorem spiSent_eq_iff (irq : Fin 1024) {vm : SpiVm} (hrunning : vm.state = .running)
    (x : Option (Fin 1024)) :
    spiSent irq vm = x.toList.map (fun x =>
        ⟨vm.vmid, vm.vcpu0, BitVec.ofNat 32 x.val, BitVec.ofNat 32 irq, injectSw⟩) ↔
      (vm.vcpu0.map irq).virq = x.elim virqInvalid fun x => BitVec.ofNat 32 x.val := by
  rw [spiSent]
  cases x with
  | none =>
      by_cases hvirq : (vm.vcpu0.map irq).virq = virqInvalid <;> simp [hvirq, hrunning]
  | some x =>
      by_cases hvirq : (vm.vcpu0.map irq).virq = virqInvalid
      · have hne : virqInvalid ≠ BitVec.ofNat 32 x.val := pirqInvalid_ne_ofNat x
        simp [hvirq, hne]
      · simp [hvirq, hrunning]

theorem elim_filter_some {α β : Type} (p : α → Bool) (x : α) (b : β) (f : α → β) :
    ((some x).filter p).elim b f = if p x then f x else b := by
  rw [Option.filter_some]
  cases p x <;> rfl

/-- The entry of an interrupt that is not the serial line's is right if the interrupt is enabled
exactly if the first processor was the first to enable it. -/
theorem SpiInv.own_iff (h : SpiInv vserial vmid es σ) {irq : Fin 1024} (hirq : 32 ≤ irq.val)
    (hp : ∀ q x, serialMap vserial vmid = some (q, x) → irq ≠ q ∧ irq ≠ x) :
    ((σ.vcpu 0).map irq).virq = ((some irq).filter (refEnabled es)).elim virqInvalid
        (fun x => BitVec.ofNat 32 x.val) ↔
      (refEnabled es irq = true ↔ EnabledByFirst es irq) := by
  have hne := pirqInvalid_ne_ofNat irq
  obtain ⟨hyes, hno⟩ := h.own irq hirq hp
  rw [elim_filter_some]
  by_cases hfirst : EnabledByFirst es irq
  · rw [hyes hfirst]
    cases refEnabled es irq <;> simp [hfirst, virqInvalid, hne.symm]
  · rw [hno hfirst]
    cases refEnabled es irq <;> simp [hfirst, virqInvalid, hne]

/-- The entry of the serial line's physical interrupt is right if the line is enabled and has not
been redirected. -/
theorem SpiInv.line_iff (h : SpiInv vserial vmid es σ) {q x : Fin 1024}
    (hserial : serialMap vserial vmid = some (q, x)) :
    ((σ.vcpu 0).map q).virq = ((some x).filter (refEnabled es)).elim virqInvalid
        (fun x => BitVec.ofNat 32 x.val) ↔
      refEnabled es x = true ∧ ¬ Redirected es q x := by
  have hneq := pirqInvalid_ne_ofNat q
  have hnex := pirqInvalid_ne_ofNat x
  obtain ⟨hyes, hno⟩ := h.line q x hserial
  rw [elim_filter_some]
  by_cases hred : Redirected es q x
  · have hqx : BitVec.ofNat 32 q.val ≠ BitVec.ofNat 32 x.val := by
      rw [Ne, ofNat_fin_inj]
      rintro rfl
      obtain ⟨i, hi, hbefore⟩ := hred
      exact lt_irrefl i (hbefore i hi)
    rw [hyes hred]
    cases refEnabled es x <;> simp [hred, virqInvalid, hneq.symm, hqx]
  · rw [hno hred]
    cases refEnabled es x <;> simp [hred, virqInvalid, hnex.symm]

theorem SpiInv.law_iff (h : SpiInv vserial vmid es σ) {irq : Fin 1024} (hirq : 32 ≤ irq.val) :
    ((σ.vcpu 0).map irq).virq = ((mappedVirq vserial vmid irq).filter (refEnabled es)).elim
        virqInvalid (fun x => BitVec.ofNat 32 x.val) ↔
      SpiCondition vserial vmid es irq := by
  rw [mappedVirq, SpiCondition]
  cases hserial : serialMap vserial vmid with
  | none =>
      exact h.own_iff hirq fun q x hpair => absurd (hserial.symm.trans hpair) (by simp)
  | some pair =>
      dsimp only
      by_cases hq : irq = pair.1
      · rw [if_pos hq, if_pos hq, hq]
        exact h.line_iff hserial
      · rw [if_neg hq, if_neg hq]
        by_cases hx : irq = pair.2
        · rw [if_pos hx, hx, h.taken pair.1 pair.2 hserial fun hsame => hq (hx.trans hsame)]
          simp
        · rw [if_neg hx, or_iff_right hx]
          refine h.own_iff hirq fun q x hpair => ?_
          rw [hserial, Option.some.injEq] at hpair
          rw [hpair] at hq hx
          exact ⟨hq, hx⟩

/-- After any writes of the guests of a running machine, `is_guest_spi` sends it what the reference
model says if and only if the condition holds of the writes. -/
theorem spi_law_iff (env : VgicdEnv) (vserial : Bool) (vmid : VmId) (vcpu : ℕ → Vcpu)
    (typer iidr : U32) (es : List EnableWrite) :
    ∃ σ, run (vgicdStep env) (.create vserial vmid vcpu typer iidr) es = some σ ∧
      ∀ irq : Fin 1024, 32 ≤ irq.val → ∀ vms : List SpiVm, (vms.map SpiVm.vmid).Nodup →
        ⟨vmid, .running, σ.vcpu 0⟩ ∈ vms →
        (SpiLaw vserial es irq vms ⟨vmid, .running, σ.vcpu 0⟩ ↔
          SpiCondition vserial vmid es irq) := by
  obtain ⟨σ, hσ, -⟩ := run_vgicdStep env (create_mapsOk vserial vmid vcpu typer iidr) es
  refine ⟨σ, hσ, fun irq hirq vms hnodup hvm => ?_⟩
  rw [SpiLaw, isGuestSpi_eq, Option.map_some, filter_flatMap_spiSent irq hnodup hvm,
    Option.some.injEq, spiSent_eq_iff irq rfl]
  exact (spiInv_run hσ).law_iff hirq

theorem spi_law_iff_alone :
    ∃ σ, run (vgicdStep ⟨31, 1, 0, fun _ => 0⟩) (.create true 0 (fun _ => default) 0 0)
        [⟨0, true, 1, 1⟩] = some σ ∧
      (SpiLaw true [⟨0, true, 1, 1⟩] 32 [⟨0, .running, σ.vcpu 0⟩] ⟨0, .running, σ.vcpu 0⟩ ↔
        SpiCondition true 0 [⟨0, true, 1, 1⟩] 32) := by
  obtain ⟨σ, hσ, hlaw⟩ := spi_law_iff ⟨31, 1, 0, fun _ => 0⟩ true 0 (fun _ => default) 0 0
    [⟨0, true, 1, 1⟩]
  exact ⟨σ, hσ, hlaw 32 (by decide) _ (List.nodup_singleton _) (List.mem_singleton_self _)⟩

/-- The guest of machine 0 enables interrupt 50 and disables it, and is sent it all the same. -/
theorem disabled_spi_is_sent :
    ∃ σ, run (vgicdStep ⟨31, 1, 0, fun _ => 0⟩) (.create true 0 (fun _ => default) 0 0)
        [⟨0, true, 1, 1 <<< 18⟩, ⟨0, false, 1, 1 <<< 18⟩] = some σ ∧
      isGuestSpi 50 [⟨0, .running, σ.vcpu 0⟩] = some [⟨0, σ.vcpu 0, 50, 50, injectSw⟩] ∧
      ¬ SpiLaw true [⟨0, true, 1, 1 <<< 18⟩, ⟨0, false, 1, 1 <<< 18⟩] 50
        [⟨0, .running, σ.vcpu 0⟩] ⟨0, .running, σ.vcpu 0⟩ := by
  have hlast : (run (vgicdStep ⟨31, 1, 0, fun _ => 0⟩) (.create true 0 (fun _ => default) 0 0)
      [⟨0, true, 1, 1 <<< 18⟩, ⟨0, false, 1, 1 <<< 18⟩]).map
        (fun σ => ((σ.vcpu 0).map 50).virq) = some 50 := by
    decide +kernel
  obtain ⟨σ, hσ, hvirq⟩ := Option.map_eq_some_iff.mp hlast
  have hne : ¬ (((σ.vcpu 0).map 50).virq = virqInvalid ∨ VmcbState.running ≠ .running) := by
    rw [hvirq]
    decide
  have hsent : spiSent 50 ⟨0, .running, σ.vcpu 0⟩ = [⟨0, σ.vcpu 0, 50, 50, injectSw⟩] := by
    rw [spiSent, if_neg hne, hvirq]
    rfl
  have hall : isGuestSpi (BitVec.ofNat 32 (50 : Fin 1024)) [⟨0, .running, σ.vcpu 0⟩] =
      some [⟨0, σ.vcpu 0, 50, 50, injectSw⟩] := by
    rw [isGuestSpi_eq, List.flatMap_singleton, hsent]
  refine ⟨σ, hσ, hall, fun hlaw => ?_⟩
  have hnone : (mappedVirq true 0 50).filter
      (refEnabled [⟨0, true, 1, 1 <<< 18⟩, ⟨0, false, 1, 1 <<< 18⟩]) = none := by
    decide +kernel
  rw [SpiLaw, hall, hnone] at hlaw
  simp at hlaw

end KHypervisor
