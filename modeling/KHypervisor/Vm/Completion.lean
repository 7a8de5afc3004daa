import KHypervisor.Vm.ListRegisters

/-!
# Completed interrupts

The maintenance interrupt empties the list registers whose interrupts the guest has completed, and
deactivates the physical interrupts behind them. The loop for the registers from 32 on looks up the
interrupt in the register 32 places below the one that it empties (`retiresCompleted_iff`).
-/

namespace KHypervisor

open BitScan

/-- The bit of list register `i` in the words of `GICH_EISR`. -/
def eisrBit (eisr₀ eisr₁ : U32) (i : ℕ) : Bool :=
  if i < 32 then eisr₀.getLsbD i else eisr₁.getLsbD (i - 32)

def completedSlots (eisr₀ eisr₁ : U32) : List ℕ := (List.range 64).filter (eisrBit eisr₀ eisr₁)

def pirqsOf (map : Fin 1024 → VirqTable) (raws : List U32) : List U32 :=
  (raws.map fun raw => (map (lrVirq raw)).pirq).filter (· ≠ pirqInvalid)

/-- The completed list registers have been emptied and no others, and the physical interrupts behind
what they held have been deactivated, one for each, and no others. -/
structure RetiresCompleted (eisr₀ eisr₁ : U32) (map : Fin 1024 → VirqTable) (g : Gich)
    (r : IrqReturn × Gich × List U32) : Prop where
  returned : r.1 = .maintenanceIrq
  cleared : r.2.1 =
    { g with lr := fun i => if i ∈ completedSlots eisr₀ eisr₁ then 0 else g.lr i }
  deactivated : r.2.2.Perm (pirqsOf map ((completedSlots eisr₀ eisr₁).map g.lr))

/-- What the second loop finds in a list register below 32, which the first may have emptied. -/
def lrAfterFirst (eisr₀ : U32) (g : Gich) (slot : ℕ) : U32 :=
  if eisr₀.getLsbD slot then 0 else g.lr slot

/-- The list registers below 32 that the second loop reads have, in its place, the physical
interrupts behind them that those from 32 on have. -/
def SecondLoopAgrees (eisr₀ eisr₁ : U32) (map : Fin 1024 → VirqTable) (g : Gich) : Prop :=
  (pirqsOf map ((bitsBelow eisr₁ 32).map (lrAfterFirst eisr₀ g))).Perm
    (pirqsOf map ((bitsBelow eisr₁ 32).map fun slot => g.lr (slot + 32)))

variable {eisr₀ eisr₁ : U32} {map : Fin 1024 → VirqTable} {g : Gich}

theorem pirqsOf_append (map : Fin 1024 → VirqTable) (raws raws' : List U32) :
    pirqsOf map (raws ++ raws') = pirqsOf map raws ++ pirqsOf map raws' := by
  rw [pirqsOf, List.map_append, List.filter_append, pirqsOf, pirqsOf]

theorem pirqsOf_cons (map : Fin 1024 → VirqTable) (raw : U32) (raws : List U32) :
    pirqsOf map (raw :: raws) = pirqsOf map [raw] ++ pirqsOf map raws :=
  pirqsOf_append map [raw] raws

theorem perm_pirqsOf (map : Fin 1024 → VirqTable) {raws raws' : List U32} (h : raws.Perm raws') :
    (pirqsOf map raws).Perm (pirqsOf map raws') :=
  (h.map _).filter _

/-! ## The loops -/

theorem maintenanceTurn_eq (map : Fin 1024 → VirqTable) (shift slot : ℕ) (g : Gich)
    (pirqs : List U32) :
    maintenanceTurn map shift slot (g, pirqs) =
      (g.writeLr (slot + shift) 0, pirqs ++ pirqsOf map [g.lr slot]) := by
  rw [maintenanceTurn, pirqsOf, List.map_singleton, List.filter_singleton]
  by_cases hvalid : (map (lrVirq (g.lr slot))).pirq ≠ pirqInvalid
  · simp [hvalid]
  · simp [hvalid]

theorem foldl_maintenanceTurn (map : Fin 1024 → VirqTable) (shift : ℕ) {slots : List ℕ}
    (hslots : slots.Pairwise fun a b => b ≠ a + shift) (g : Gich) (pirqs : List U32) :
    slots.foldl (fun st slot => maintenanceTurn map shift slot st) (g, pirqs) =
      ({ g with lr := fun i => if ∃ slot ∈ slots, i = slot + shift then 0 else g.lr i },
        pirqs ++ pirqsOf map (slots.map g.lr)) := by
  induction slots generalizing g pirqs with
  | nil => simp [pirqsOf]
  | cons slot slots ih =>
      obtain ⟨hfirst, hrest⟩ := List.pairwise_cons.mp hslots
      have hread : slots.map (g.writeLr (slot + shift) 0).lr = slots.map g.lr :=
        List.map_congr_left fun b hb => Function.update_of_ne (hfirst b hb) _ _
      rw [List.foldl_cons, maintenanceTurn_eq, ih hrest, hread, List.append_assoc, ← pirqsOf_cons,
        ← List.map_cons]
      congr 2
      funext i
      by_cases hi : i = slot + shift
      · simp [hi, Gich.writeLr]
      · simp [hi, Gich.writeLr]

theorem mem_completedSlots (eisr₀ eisr₁ : U32) (i : ℕ) :
    i ∈ completedSlots eisr₀ eisr₁ ↔
      i ∈ bitsBelow eisr₀ 32 ∨ ∃ slot ∈ bitsBelow eisr₁ 32, i = slot + 32 := by
  simp only [completedSlots, List.mem_filter, List.mem_range, mem_bitsBelow, eisrBit]
  by_cases hi : i < 32
  · rw [if_pos hi]
    refine ⟨fun h => .inl ⟨hi, h.2⟩, ?_⟩
    rintro (h | ⟨slot, -, rfl⟩)
    · exact ⟨by omega, h.2⟩
    · exact absurd hi (by omega)
  · rw [if_neg hi]
    constructor
    · intro h
      exact .inr ⟨i - 32, ⟨by omega, h.2⟩, by omega⟩
    · rintro (h | ⟨slot, h, rfl⟩)
      · exact absurd h.1 hi
      · rw [Nat.add_sub_cancel]
        exact ⟨by omega, h.2⟩

theorem completedSlots_perm (eisr₀ eisr₁ : U32) :
    (completedSlots eisr₀ eisr₁).Perm
      (bitsBelow eisr₀ 32 ++ (bitsBelow eisr₁ 32).map (· + 32)) := by
  have hnodup : ∀ x : U32, (bitsBelow x 32).Nodup := fun x =>
    (pairwise_bitsBelow x 32).imp fun h => Nat.ne_of_gt h
  have hshift : ((bitsBelow eisr₁ 32).map (· + 32)).Nodup :=
    (hnodup eisr₁).map (add_left_injective 32)
  refine (List.perm_ext_iff_of_nodup (List.nodup_range.filter _) ?_).mpr fun i => ?_
  · refine List.nodup_append'.mpr ⟨hnodup eisr₀, hshift, fun i hi hi' => ?_⟩
    obtain ⟨slot, -, rfl⟩ := List.mem_map.mp hi'
    exact absurd (mem_bitsBelow.mp hi).1 (by omega)
  · rw [← completedSlots, mem_completedSlots, List.mem_append, List.mem_map]
    exact or_congr Iff.rfl (exists_congr fun slot => and_congr_right fun _ => eq_comm)

theorem gicIsrMaintenanceIrq_eq {misr : U32} (hmisr : misr &&& gichMisrEoi ≠ 0) (eisr₀ eisr₁ : U32)
    (map : Fin 1024 → VirqTable) (g : Gich) :
    gicIsrMaintenanceIrq misr eisr₀ eisr₁ map g =
      (.maintenanceIrq,
        { g with lr := fun i => if i ∈ completedSlots eisr₀ eisr₁ then 0 else g.lr i },
        pirqsOf map ((bitsBelow eisr₀ 32).map g.lr) ++
          pirqsOf map ((bitsBelow eisr₁ 32).map (lrAfterFirst eisr₀ g))) := by
  have hfirst : (bitsBelow eisr₀ 32).Pairwise fun a b => b ≠ a + 0 :=
    (pairwise_bitsBelow eisr₀ 32).imp fun h => Nat.ne_of_lt h
  have hsecond : (bitsBelow eisr₁ 32).Pairwise fun a b => b ≠ a + 32 := by
    refine (List.pairwise_of_forall_mem_list fun a _ b hb => ?_)
    have hlt := (mem_bitsBelow.mp hb).1
    omega
  rw [gicIsrMaintenanceIrq, if_pos hmisr]
  dsimp only
  rw [scan_eq, scan_eq, foldl_maintenanceTurn map 0 hfirst, foldl_maintenanceTurn map 32 hsecond]
  simp only [Nat.add_zero, exists_eq_right', List.nil_append]
  congr 3
  · funext i
    rw [if_congr (mem_completedSlots eisr₀ eisr₁ i) rfl rfl]
    by_cases h₁ : ∃ slot ∈ bitsBelow eisr₁ 32, i = slot + 32
    · rw [if_pos h₁, if_pos (.inr h₁)]
    · rw [if_neg h₁, if_congr (or_iff_left h₁) rfl rfl]
  · refine congrArg (pirqsOf map) (List.map_congr_left fun slot hslot => ?_)
    rw [lrAfterFirst]
    exact if_congr (by rw [mem_bitsBelow]; exact and_iff_right (mem_bitsBelow.mp hslot).1) rfl rfl

/-- For all contents of the list registers, words of `GICH_EISR` and interrupt maps: the loops end,
and exactly the completed registers are emptied and exactly the physical interrupts behind them
deactivated, if and only if the registers that the second loop reads have the same physical
interrupts behind them as those that it empties. -/
theorem retiresCompleted_iff {misr : U32} (hmisr : misr &&& gichMisrEoi ≠ 0) (eisr₀ eisr₁ : U32)
    (map : Fin 1024 → VirqTable) (g : Gich) :
    (clearHighest^[32] eisr₀ = 0 ∧ clearHighest^[32] eisr₁ = 0 ∧
      RetiresCompleted eisr₀ eisr₁ map g (gicIsrMaintenanceIrq misr eisr₀ eisr₁ map g)) ↔
      SecondLoopAgrees eisr₀ eisr₁ map g := by
  have hends : ∀ eisr : U32, clearHighest^[32] eisr = 0 := fun eisr =>
    iterate_clearHighest fun i hi => BitVec.getLsbD_of_ge eisr i hi
  have hslots := perm_pirqsOf map ((completedSlots_perm eisr₀ eisr₁).map g.lr)
  rw [List.map_append, List.map_map, pirqsOf_append] at hslots
  rw [gicIsrMaintenanceIrq_eq hmisr]
  constructor
  · rintro ⟨-, -, -, -, hperm⟩
    exact (List.perm_append_left_iff _).mp (hperm.trans hslots)
  · intro hagrees
    exact ⟨hends eisr₀, hends eisr₁, rfl, rfl,
      ((List.perm_append_left_iff _).mpr hagrees).trans hslots.symm⟩

def ownPirqs (virq : Fin 1024) : VirqTable :=
  { (default : VirqTable) with pirq := BitVec.ofNat 32 virq }

/-- Interrupt 27 is in the first list register and interrupt 40 in the one 32 places on. -/
def lowAndHigh : Gich :=
  { (default : Gich) with lr := fun i => if i = 0 then 27 else if i = 32 then 40 else 0 }

theorem retiresCompleted_iff_low :
    (clearHighest^[32] (1 : U32) = 0 ∧ clearHighest^[32] (0 : U32) = 0 ∧
      RetiresCompleted 1 0 ownPirqs lowAndHigh
        (gicIsrMaintenanceIrq 1 1 0 ownPirqs lowAndHigh)) ↔
      SecondLoopAgrees 1 0 ownPirqs lowAndHigh :=
  retiresCompleted_iff (by decide) 1 0 ownPirqs lowAndHigh

/-- The guest completes interrupt 40, and interrupt 27 is deactivated. -/
theorem high_slot_deactivates_low :
    (gicIsrMaintenanceIrq 1 0 1 ownPirqs lowAndHigh).2.2 = [27] ∧
      completedSlots 0 1 = [32] ∧ (ownPirqs (lrVirq (lowAndHigh.lr 32))).pirq = 40 ∧
      ¬ RetiresCompleted 0 1 ownPirqs lowAndHigh
        (gicIsrMaintenanceIrq 1 0 1 ownPirqs lowAndHigh) := by
  have hmisr : (1 : U32) &&& gichMisrEoi ≠ 0 := by decide
  have hdone : (gicIsrMaintenanceIrq 1 0 1 ownPirqs lowAndHigh).2.2 = [27] := by
    rw [gicIsrMaintenanceIrq_eq hmisr]
    rfl
  refine ⟨hdone, by decide, rfl, fun h => ?_⟩
  have hperm := h.deactivated
  rw [hdone] at hperm
  exact absurd hperm (by decide)

end KHypervisor
