import KHypervisor.Lib.Run
import KHypervisor.Vdev.IrqOwnership

/-!
# The table of interrupt handlers

`irq_init` runs on every processor and fills what is free in `irq_handlers` with the handlers of the
guests' interrupts. The bounds of its loops are written out, the size of the table is the platform's
`MAX_IRQS`. The model has the words from the start of the table on, also those that the linker
placed behind it, and records which of them a step touches.
-/

namespace KHypervisor

open Run

variable {H : Type*}

/-- The words from `irq_handlers` on, a null pointer as `none`, the indices that the last event read
or wrote, and whether `irq_init` has been called. -/
structure IrqTable (H : Type*) where
  cells : ℕ → Option H
  accesses : List ℕ
  ready : Bool

/-- `gic_get_irq_number`, for the value of `GICC_IAR`. -/
def gicGetIrqNumber (iar : U32) : U32 := iar &&& 0x3FF

theorem gicGetIrqNumber_lt (iar : U32) : (gicGetIrqNumber iar).toNat < 1024 := by
  rw [gicGetIrqNumber, BitVec.toNat_and]
  exact Nat.and_lt_two_pow _ (by decide : 0x3FF < 2 ^ 10)

namespace IrqTable

/-- `handler[i]`. -/
def readEntry (i : ℕ) (t : IrqTable H) : Option H × IrqTable H :=
  (t.cells i, { t with accesses := i :: t.accesses })

/-- `handler[i] = h`. -/
def writeEntry (i : ℕ) (h : H) (t : IrqTable H) : IrqTable H :=
  { t with cells := Function.update t.cells i (some h), accesses := i :: t.accesses }

/-- A turn of a loop of `irq_handler_init`. -/
def fillTurn (guest : H) (t : IrqTable H) (i : ℕ) : IrqTable H :=
  match t.readEntry i with
  | (some _, t) => t
  | (none, t) => t.writeEntry i guest

/-- `for (i = lo; i < hi; i++)` around it. -/
def fillLoop (guest : H) (lo hi : ℕ) (t : IrqTable H) : IrqTable H :=
  (List.range' lo (hi - lo)).foldl (fillTurn guest) t

/-- `irq_handler_init`. -/
def irqHandlerInit (guest : GuestHandler → H) (t : IrqTable H) : IrqTable H :=
  let t := t.fillLoop (guest .sgi) 0 16
  let t := t.fillLoop (guest .ppi) 16 32
  t.fillLoop (guest .spi) 32 1025

/-- `irq_init`. -/
def irqInit (guest : GuestHandler → H) (t : IrqTable H) : IrqTable H :=
  { t.irqHandlerInit guest with ready := true }

/-- `register_irq_handler`. -/
def registerIrqHandler (maxIrqs : ℕ) (irq : U32) (handler : H) (t : IrqTable H) : IrqTable H :=
  if irq.toNat < maxIrqs then t.writeEntry irq.toNat handler else t

/-- The handler that `do_irq` calls for the value of `GICC_IAR`. -/
def doIrq (iar : U32) (t : IrqTable H) : Option H × IrqTable H :=
  t.readEntry (gicGetIrqNumber iar).toNat

end IrqTable

/-- What happens to the table: a processor comes up, a driver registers a handler, an interrupt
arrives. -/
inductive IrqTableEvent (H : Type*)
  | irqInit
  | registerIrqHandler (irq : U32) (handler : H)
  | doIrq (iar : U32)

namespace IrqTable

def step (guest : GuestHandler → H) (maxIrqs : ℕ) (t : IrqTable H) (e : IrqTableEvent H) :
    Option (IrqTable H) :=
  let t := { t with accesses := [] }
  match e with
  | .irqInit => some (t.irqInit guest)
  | .registerIrqHandler irq handler => some (t.registerIrqHandler maxIrqs irq handler)
  | .doIrq iar => some (t.doIrq iar).2

def init (cells : ℕ → Option H) : IrqTable H := ⟨cells, [], false⟩

/-- `irq_init` and `register_irq_handler` stay inside the table, and so does `do_irq` once
`irq_init` has been called; `irq_init` replaces no handler; since then every interrupt has one, and
`do_irq` calls it. -/
structure Lawful (maxIrqs : ℕ) (t : IrqTable H) (e : IrqTableEvent H) (t' : IrqTable H) : Prop where
  inside : ((∃ iar, e = .doIrq iar) → t.ready = true) → ∀ i ∈ t'.accesses, i < maxIrqs
  keeps : e = .irqInit → ∀ i h, t.cells i = some h → t'.cells i = some h
  filled : t'.ready = true → ∀ i < 1024, i < maxIrqs ∧ (t'.cells i).isSome
  called : t.ready = true → ∀ iar, e = .doIrq iar → (t.doIrq iar).1.isSome

/-! ## The loops -/

section Loops

variable (guest : H) (lo hi : ℕ) (t : IrqTable H)

theorem fillTurn_cells (i : ℕ) :
    (t.fillTurn guest i).cells = Function.update t.cells i (some ((t.cells i).getD guest)) := by
  cases h : t.cells i with
  | none =>
      rw [fillTurn, readEntry, h]
      rfl
  | some g =>
      rw [Option.getD_some, ← h, Function.update_eq_self, fillTurn, readEntry, h]

theorem mem_accesses_fillTurn (i j : ℕ) :
    j ∈ (t.fillTurn guest i).accesses ↔ j = i ∨ j ∈ t.accesses := by
  rw [fillTurn, readEntry]
  cases t.cells i with
  | none => simp [writeEntry]
  | some g => simp

theorem foldl_fillTurn_cells {is : List ℕ} (his : is.Nodup) (i : ℕ) :
    (is.foldl (fillTurn guest) t).cells i =
      if i ∈ is then some ((t.cells i).getD guest) else t.cells i := by
  induction is generalizing t with
  | nil => simp
  | cons j is ih =>
      obtain ⟨hj, hnodup⟩ := List.nodup_cons.mp his
      rw [List.foldl_cons, ih _ hnodup, fillTurn_cells]
      by_cases hij : i = j
      · subst hij
        rw [if_neg hj, Function.update_self, if_pos List.mem_cons_self]
      · rw [Function.update_of_ne hij]
        simp only [List.mem_cons, hij, false_or]

theorem mem_accesses_foldl_fillTurn (is : List ℕ) (i : ℕ) :
    i ∈ (is.foldl (fillTurn guest) t).accesses ↔ i ∈ is ∨ i ∈ t.accesses := by
  induction is generalizing t with
  | nil => simp
  | cons j is ih =>
      rw [List.foldl_cons, ih, mem_accesses_fillTurn, List.mem_cons, or_left_comm, or_assoc]

theorem mem_range'_sub (i : ℕ) : i ∈ List.range' lo (hi - lo) ↔ lo ≤ i ∧ i < hi := by
  rw [List.mem_range'_1]
  omega

theorem fillLoop_cells (i : ℕ) :
    (t.fillLoop guest lo hi).cells i =
      if lo ≤ i ∧ i < hi then some ((t.cells i).getD guest) else t.cells i := by
  rw [fillLoop, foldl_fillTurn_cells guest t List.nodup_range']
  simp only [mem_range'_sub]

theorem mem_accesses_fillLoop (i : ℕ) :
    i ∈ (t.fillLoop guest lo hi).accesses ↔ (lo ≤ i ∧ i < hi) ∨ i ∈ t.accesses := by
  rw [fillLoop, mem_accesses_foldl_fillTurn, mem_range'_sub]

end Loops

/-! ## The functions -/

section Functions

variable (guest : GuestHandler → H) (t : IrqTable H)

def guestOf (guest : GuestHandler → H) (i : ℕ) : H :=
  if i < 16 then guest .sgi else if i < 32 then guest .ppi else guest .spi

theorem irqHandlerInit_cells (i : ℕ) :
    (t.irqHandlerInit guest).cells i =
      if i < 1025 then some ((t.cells i).getD (guestOf guest i)) else t.cells i := by
  rw [irqHandlerInit, fillLoop_cells, fillLoop_cells, fillLoop_cells, guestOf]
  by_cases hsgi : i < 16
  · simp [hsgi, show i < 32 by omega, show i < 1025 by omega, show ¬ 16 ≤ i by omega,
      show ¬ 32 ≤ i by omega]
  by_cases hppi : i < 32
  · simp [hsgi, hppi, show i < 1025 by omega, show 16 ≤ i by omega, show ¬ 32 ≤ i by omega]
  · simp [hsgi, hppi, show 32 ≤ i by omega]

theorem mem_accesses_irqHandlerInit (i : ℕ) :
    i ∈ (t.irqHandlerInit guest).accesses ↔ i < 1025 ∨ i ∈ t.accesses := by
  rw [irqHandlerInit, mem_accesses_fillLoop, mem_accesses_fillLoop, mem_accesses_fillLoop,
    ← or_assoc, ← or_assoc]
  apply or_congr_left
  omega

/-- The handler that `do_irq` finds after `irq_init` is the one that its ownership was proved of. -/
theorem doIrq_irqInit (numLr : ℕ) (t : IrqTable IrqHandler) (iar : U32) :
    ((t.irqInit (GuestHandler.run numLr)).doIrq iar).1 =
      some (KHypervisor.irqHandlerInit numLr (fun i => t.cells i)
        ⟨(gicGetIrqNumber iar).toNat, gicGetIrqNumber_lt iar⟩) := by
  have hlt : (gicGetIrqNumber iar).toNat < 1025 := (gicGetIrqNumber_lt iar).trans (by decide)
  rw [doIrq, readEntry, irqInit, irqHandlerInit_cells, if_pos hlt]
  rfl

end Functions

/-! ## Runs -/

section Runs

variable {guest : GuestHandler → H} {maxIrqs : ℕ} {t t' : IrqTable H}

/-- Once `irq_init` has been called every interrupt has a handler, inside the table. -/
def Filled (maxIrqs : ℕ) (t : IrqTable H) : Prop :=
  t.ready = true → ∀ i < 1024, i < maxIrqs ∧ (t.cells i).isSome

/-- A step of `irq_init` obeys the law where the table has a word more than interrupts. -/
theorem lawful_irqInit_iff (ht : step guest maxIrqs t .irqInit = some t') :
    Lawful maxIrqs t .irqInit t' ↔ 1025 ≤ maxIrqs := by
  rw [step, Option.some.injEq] at ht
  have hcells : ∀ i, t'.cells i =
      if i < 1025 then some ((t.cells i).getD (guestOf guest i)) else t.cells i := by
    intro i
    rw [← ht, irqInit, irqHandlerInit_cells]
  have haccesses : ∀ i, i ∈ t'.accesses ↔ i < 1025 := by
    intro i
    rw [← ht, irqInit, mem_accesses_irqHandlerInit, or_iff_left List.not_mem_nil]
  constructor
  · intro h
    apply h.inside
    · rintro ⟨iar, h⟩
      cases h
    · exact (haccesses 1024).mpr (by decide)
  · intro hmax
    refine ⟨?_, ?_, ?_, ?_⟩
    · intro _ i hi
      have hi := (haccesses i).mp hi
      omega
    · intro _ i h hi
      rw [hcells, hi, Option.getD_some, ite_self]
    · intro _ i hi
      rw [hcells, if_pos (Nat.lt_succ_of_lt hi)]
      exact ⟨by omega, rfl⟩
    · intro _ iar h
      cases h

theorem lawful_registerIrqHandler {irq : U32} {handler : H} (hfilled : t.Filled maxIrqs)
    (ht : step guest maxIrqs t (.registerIrqHandler irq handler) = some t') :
    Lawful maxIrqs t (.registerIrqHandler irq handler) t' := by
  have ht' := Option.some.inj ht
  rw [registerIrqHandler] at ht'
  split at ht'
  · rename_i hirq
    subst ht'
    refine ⟨?_, ?_, ?_, ?_⟩
    · intro _ i hi
      rwa [List.mem_singleton.mp hi]
    · intro h
      cases h
    · intro hready i hi
      refine ⟨(hfilled hready i hi).1, ?_⟩
      change (Function.update t.cells irq.toNat (some handler) i).isSome
      by_cases heq : i = irq.toNat
      · rw [heq, Function.update_self, Option.isSome_some]
      · rw [Function.update_of_ne heq]
        exact (hfilled hready i hi).2
    · intro _ _ h
      cases h
  · subst ht'
    refine ⟨?_, ?_, hfilled, ?_⟩
    · intro _ i hi
      cases hi
    · intro h
      cases h
    · intro _ _ h
      cases h

theorem lawful_doIrq {iar : U32} (hfilled : t.Filled maxIrqs)
    (ht : step guest maxIrqs t (.doIrq iar) = some t') : Lawful maxIrqs t (.doIrq iar) t' := by
  have ht' := Option.some.inj ht
  subst ht'
  refine ⟨?_, ?_, hfilled, ?_⟩
  · intro hready i hi
    rw [List.mem_singleton.mp hi]
    exact (hfilled (hready ⟨iar, rfl⟩) _ (gicGetIrqNumber_lt iar)).1
  · intro h
    cases h
  · intro hready iar' _
    exact (hfilled hready _ (gicGetIrqNumber_lt iar')).2

theorem lawful_iff {e : IrqTableEvent H} (hfilled : t.Filled maxIrqs)
    (ht : step guest maxIrqs t e = some t') :
    Lawful maxIrqs t e t' ↔ (e = .irqInit → 1025 ≤ maxIrqs) := by
  cases e with
  | irqInit => exact (lawful_irqInit_iff ht).trans ⟨fun hmax _ => hmax, fun hmax => hmax rfl⟩
  | registerIrqHandler irq handler =>
      exact iff_of_true (lawful_registerIrqHandler hfilled ht) fun h => by cases h
  | doIrq iar => exact iff_of_true (lawful_doIrq hfilled ht) fun h => by cases h

/-- The law holds along a run, from any contents of the table, if and only if nobody calls
`irq_init` in it or the table has at least 1025 words. -/
theorem follows_lawful_iff (guest : GuestHandler → H) (maxIrqs : ℕ) (cells : ℕ → Option H)
    (es : List (IrqTableEvent H)) :
    Follows (step guest maxIrqs) (Lawful maxIrqs) (init cells) es ↔
      .irqInit ∉ es ∨ 1025 ≤ maxIrqs := by
  have hinit : (init cells).Filled maxIrqs := by
    intro h
    cases h
  have hcongr : Follows (step guest maxIrqs) (Lawful maxIrqs) (init cells) es ↔
      Follows (step guest maxIrqs) (fun _ e _ => e = .irqInit → 1025 ≤ maxIrqs) (init cells) es :=
    follows_congr hinit (fun _ _ _ _ hu hv => lawful_iff hu hv)
      fun _ _ _ _ hu hv hlaw => ((lawful_iff hu hv).mpr hlaw).filled
  rw [hcongr, follows_event_iff (I := Filled maxIrqs) hinit]
  · constructor
    · intro h
      by_cases hmem : .irqInit ∈ es
      · exact .inr (h _ hmem rfl)
      · exact .inl hmem
    · rintro (hnot | hmax) e he heq
      · exact absurd (heq ▸ he) hnot
      · exact hmax
  · intro u e _ hu hlaw
    cases hv : step guest maxIrqs u e with
    | none => cases e <;> cases hv
    | some v => exact ⟨v, rfl, ((lawful_iff hu hv).mpr hlaw).filled⟩

/-- The first processor to come up writes a word behind a table of 1024. -/
theorem irqInit_writes_past_table :
    ¬ ∀ (cells : ℕ → Option ℕ) (es : List (IrqTableEvent ℕ)),
      Follows (step (fun _ => 0) 1024) (Lawful 1024) (init cells) es := by
  intro h
  obtain ⟨t, ht, hlaw, -⟩ := h (fun _ => none) [.irqInit]
  exact absurd ((lawful_irqInit_iff ht).mp hlaw) (by decide)

end Runs

end IrqTable

end KHypervisor
