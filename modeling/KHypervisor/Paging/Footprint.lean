import KHypervisor.Paging.Mapping

/-!
# The footprint of a table

Which words the operations on a table store to. Every store of an operation goes to a word of the
table it is made for (`TableOp.writesOnly`), the words of a table fill its range of addresses, and
different entries are different words. A word outside the range therefore keeps its value.
-/

namespace KHypervisor

open Run

/-- `m'` comes from `m` by stores to addresses in `A`. -/
structure WritesOnly (A : U32 → Prop) (m m' : PhysMem) : Prop where
  log : ∃ new, m'.stores = new ++ m.stores ∧ ∀ a ∈ new, A a
  frame : ∀ b, (∀ a, A a → 8 ≤ (b - physAddr a).toNat) → m'.bytes b = m.bytes b

namespace WritesOnly

variable {A : U32 → Prop} {m m' m'' : PhysMem}

theorem refl (m : PhysMem) : WritesOnly A m m :=
  ⟨⟨[], rfl, fun _ ha => absurd ha List.not_mem_nil⟩, fun _ _ => rfl⟩

theorem trans (h : WritesOnly A m m') (h' : WritesOnly A m' m'') : WritesOnly A m m'' := by
  obtain ⟨new, hnew, hmem⟩ := h.log
  obtain ⟨new', hnew', hmem'⟩ := h'.log
  refine ⟨⟨new' ++ new, ?_, ?_⟩, ?_⟩
  · rw [hnew', hnew, List.append_assoc]
  · intro a ha
    exact (List.mem_append.mp ha).elim (hmem' a) (hmem a)
  · intro b hb
    rw [h'.frame b hb, h.frame b hb]

theorem write64 {a : U32} (ha : A a) (v : U64) (m : PhysMem) :
    WritesOnly A m (write64 v a m) := by
  refine ⟨⟨[a], rfl, ?_⟩, ?_⟩
  · intro b hb
    rw [List.mem_singleton.mp hb]
    exact ha
  · intro b hb
    exact ByteMemory.write64_of_far _ _ (hb a ha)

theorem foldl {α : Type*} {f : PhysMem → α → PhysMem} {l : List α}
    (hf : ∀ x ∈ l, ∀ m, WritesOnly A m (f m x)) (m : PhysMem) : WritesOnly A m (l.foldl f m) := by
  induction l generalizing m with
  | nil => exact refl m
  | cons x l ih =>
      have hhead := hf x List.mem_cons_self m
      exact hhead.trans (ih (fun y hy => hf y (List.mem_cons_of_mem _ hy)) _)

theorem mem_of_nil (h : WritesOnly A m m') (hm : m.stores = []) {a : U32} (ha : a ∈ m'.stores) :
    A a := by
  obtain ⟨new, hnew, hmem⟩ := h.log
  rw [hnew, hm, List.append_nil] at ha
  exact hmem a ha

theorem read64_eq (h : WritesOnly A m m') (hA : ∀ a, A a → WordAligned a) {b : U32}
    (hb : WordAligned b) (hnot : ¬ A b) : read64 b m' = read64 b m := by
  have halign : ∀ {c : U32}, WordAligned c → ByteMemory.Aligned (physAddr c) := by
    intro c hc
    rw [ByteMemory.Aligned, toNat_physAddr]
    exact hc
  apply ByteMemory.read64_congr
  intro k hk
  apply h.frame
  intro a ha
  refine ByteMemory.far_of_aligned (by omega) (halign (hA a ha)) (halign hb) ?_ hk
  intro heq
  rw [physAddr_injective heq] at ha
  exact hnot ha

end WritesOnly

/-! ## Operations on a table -/

/-- A word of the table at `base`. -/
def IsTableWord (base a : U32) : Prop := ∃ k < tableWords, tableWord base k = a

theorem writesOnly_pagingCreate (base : U32) (m : PhysMem) :
    WritesOnly (IsTableWord base) m (pagingCreate base m) := by
  rw [pagingCreate_eq]
  refine WritesOnly.trans (WritesOnly.foldl ?_ m) (WritesOnly.foldl ?_ _)
  · intro i hi m
    have hlt : i < 4 := List.mem_range.mp hi
    exact .write64 ⟨0 + i, by rw [tableWords]; omega, rfl⟩ _ m
  · intro i hi m
    have hlt : i < 2048 := List.mem_range.mp hi
    exact .write64 ⟨0x200 + i, by rw [tableWords]; omega, rfl⟩ _ m

theorem writesOnly_writePgentry (base va pa : U32) (memAttr ap af : U8) (m : PhysMem) :
    WritesOnly (IsTableWord base) m (writePgentry base va pa memAttr ap af m) := by
  rw [writePgentry, l1EntryAddr_eq, l2EntryAddr_eq, l3EntryAddr_eq]
  have hnode : ∀ n : TableNode, IsTableWord base (tableWord base n.word) := fun n =>
    ⟨n.word, n.word_lt_tableWords, rfl⟩
  have hleaf : ∀ p : PageNo, IsTableWord base (tableWord base (leafWord p)) := fun p =>
    ⟨leafWord p, leafWord_lt p, rfl⟩
  exact ((WritesOnly.write64 (hnode _) _ m).trans (.write64 (hnode _) _ _)).trans
    (.write64 (hleaf _) _ _)

theorem writesOnly_mapLoop {A : U32 → Prop} {step : U32 → U32 → PhysMem → PhysMem}
    (hstep : ∀ va pa m, WritesOnly A m (step va pa m)) {size : U32} {fuel : ℕ} {i va pa : U32}
    {m m' : PhysMem} (h : mapLoop step size fuel i va pa m = some m') : WritesOnly A m m' := by
  induction fuel generalizing i va pa m with
  | zero => simp [mapLoop] at h
  | succ fuel ih =>
      rw [mapLoop] at h
      by_cases hgo : i < size
      · rw [if_pos hgo] at h
        exact (hstep va pa m).trans (ih h)
      · rw [if_neg hgo, Option.some.injEq] at h
        rw [← h]
        exact .refl m

inductive TableOp
  | create
  | write (va pa : U32) (memAttr ap af : U8)
  | map (c : MapCall)

/-- The operation, on the table at `base`. -/
def TableOp.apply (base : U32) (m : PhysMem) : TableOp → Option PhysMem
  | create => some (pagingCreate base m)
  | write va pa memAttr ap af => some (writePgentry base va pa memAttr ap af m)
  | map c => c.apply base m

theorem TableOp.writesOnly {base : U32} {m m' : PhysMem} {op : TableOp}
    (h : op.apply base m = some m') : WritesOnly (IsTableWord base) m m' := by
  cases op with
  | create =>
      rw [← Option.some.inj h]
      exact writesOnly_pagingCreate base m
  | write va pa memAttr ap af =>
      rw [← Option.some.inj h]
      exact writesOnly_writePgentry base va pa memAttr ap af m
  | map c => exact writesOnly_mapLoop (fun _ _ _ => writesOnly_writePgentry _ _ _ _ _ _ _) h

theorem TableOp.writesOnly_run {base : U32} {m m' : PhysMem} {ops : List TableOp}
    (h : run (TableOp.apply base) m ops = some m') : WritesOnly (IsTableWord base) m m' :=
  run_induction (I := fun _ u => WritesOnly (IsTableWord base) m u) (.refl m)
    (fun _ _ _ _ _ hu hv => hu.trans (TableOp.writesOnly hv)) h

/-! ## Where the words lie -/

/-- The word at `a` lies in the range of addresses of the table at `base`. -/
def InTable (base a : U32) : Prop :=
  base.toNat ≤ a.toNat ∧ a.toNat + 8 ≤ base.toNat + 0x805000

theorem IsTableWord.inTable {base a : U32} (hend : base.toNat + 0x805000 ≤ 2 ^ 32)
    (h : IsTableWord base a) : InTable base a := by
  obtain ⟨k, hk, rfl⟩ := h
  rw [tableWords] at hk
  rw [InTable, toNat_tableWord, Nat.mod_eq_of_lt (by omega)]
  omega

theorem IsTableWord.wordAligned {base a : U32} (hbase : PageAligned base)
    (h : IsTableWord base a) : WordAligned a := by
  obtain ⟨k, -, rfl⟩ := h
  exact wordAligned_tableWord hbase k

inductive TableEntry
  | first (l1 : BitVec 2)
  | second (l1 : BitVec 2) (l2 : BitVec 9)
  | third (l1 : BitVec 2) (l2 l3 : BitVec 9)

def TableEntry.addr (base : U32) : TableEntry → U32
  | first l1 => l1EntryAddr base (l1.setWidth 32)
  | second l1 l2 => l2EntryAddr base (l1.setWidth 32) (l2.setWidth 32)
  | third l1 l2 l3 => l3EntryAddr base (l1.setWidth 32) (l2.setWidth 32) (l3.setWidth 32)

def TableEntry.word : TableEntry → ℕ
  | first l1 => l1.toNat
  | second l1 l2 => 0x200 + l1.toNat * 0x200 + l2.toNat
  | third l1 l2 l3 => 0xA00 + l1.toNat * 0x40000 + l2.toNat * 0x200 + l3.toNat

theorem TableEntry.word_lt (e : TableEntry) : e.word < tableWords := by
  rw [tableWords]
  cases e with
  | first l1 => rw [word]; omega
  | second l1 l2 => rw [word]; omega
  | third l1 l2 l3 => rw [word]; omega

theorem TableEntry.word_injective : Function.Injective word := by
  intro e e' h
  cases e with
  | first l1 =>
      cases e' with
      | first l1' => exact congrArg first (BitVec.eq_of_toNat_eq h)
      | second l1' l2' => simp only [word] at h; omega
      | third l1' l2' l3' => simp only [word] at h; omega
  | second l1 l2 =>
      cases e' with
      | first l1' => simp only [word] at h; omega
      | second l1' l2' =>
          simp only [word] at h
          rw [second.injEq, ← BitVec.toNat_inj, ← BitVec.toNat_inj]
          omega
      | third l1' l2' l3' => simp only [word] at h; omega
  | third l1 l2 l3 =>
      cases e' with
      | first l1' => simp only [word] at h; omega
      | second l1' l2' => simp only [word] at h; omega
      | third l1' l2' l3' =>
          simp only [word] at h
          rw [third.injEq, ← BitVec.toNat_inj, ← BitVec.toNat_inj, ← BitVec.toNat_inj]
          omega

theorem TableEntry.addr_eq (base : U32) (e : TableEntry) :
    e.addr base = tableWord base e.word := by
  have hwiden : ∀ {n : ℕ} (i : BitVec n), n ≤ 32 → (i.setWidth 32).toNat = i.toNat := by
    intro n i hn
    have hpow : 2 ^ n ≤ 2 ^ 32 := Nat.pow_le_pow_right (by omega) hn
    rw [BitVec.toNat_setWidth, Nat.mod_eq_of_lt (lt_of_lt_of_le i.isLt hpow)]
  cases e with
  | first l1 =>
      rw [addr, word, l1EntryAddr, getOffset_eq, hwiden l1 (by omega), tableWord]
  | second l1 l2 =>
      have hconst : (0x1000 : U32) = BitVec.ofNat 32 0x1000 := rfl
      rw [addr, word, l2EntryAddr, getOffset_eq, getL2Index_eq, hwiden l1 (by omega),
        hwiden l2 (by omega), tableWord, hconst]
      simp only [add_assoc, ← BitVec.ofNat_add]
      congr 2
      omega
  | third l1 l2 l3 =>
      have hconst : (0x5000 : U32) = BitVec.ofNat 32 0x5000 := rfl
      rw [addr, word, l3EntryAddr, getOffset_eq, getL2Index_eq, getL3Index_eq,
        hwiden l1 (by omega), hwiden l2 (by omega), hwiden l3 (by omega), tableWord, hconst]
      simp only [add_assoc, ← BitVec.ofNat_add]
      congr 2
      omega

theorem TableEntry.addr_injective (base : U32) : Function.Injective (TableEntry.addr base) := by
  intro e e' h
  rw [addr_eq, addr_eq, tableWord_inj e.word_lt e'.word_lt] at h
  exact word_injective h

end KHypervisor
