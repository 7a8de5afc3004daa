import KHypervisor.Vdev.Vgicd

/-!
# The arrays of the virtual distributor

Both handlers compute the number of a cell from the offset that the guest has chosen. Most
registers divide the offset within their case by the size of a word; `GICD_ICFGR`, `GICD_CPENDSGIR`
and `GICD_SPENDSGIR` take it as it is, and leave their arrays.
-/

namespace KHypervisor

/-- No array of `struct vgicd`, and no row of one, is accessed behind its end. -/
def InBounds {α : Type} (result : Except VgicdFault α) : Prop := result ≠ .error .gicd

/-- An offset so far into the case of a register that the cell with its number is behind the end of
the array: there are 64 cells behind `GICD_ICFGR`, and rows of 4 behind the other two. -/
def PastEnd (offset : U32) : Prop :=
  (GicdReg.icfgr.first + 64 ≤ offset ∧ offset ≤ GicdReg.icfgr.last) ∨
    (GicdReg.cpendsgir.first + 4 ≤ offset ∧ offset ≤ GicdReg.cpendsgir.last) ∨
    (GicdReg.spendsgir.first + 4 ≤ offset ∧ offset ≤ GicdReg.spendsgir.last)

/-! ## Which case an offset is in -/

theorem mem_gicdRegs (r : GicdReg) : r ∈ gicdRegs := by
  cases r <;> decide

theorem gicdRegs_disjoint :
    ∀ r ∈ gicdRegs, ∀ r' ∈ gicdRegs, r ≠ r' → r.last < r'.first ∨ r'.last < r.first := by
  decide

theorem gicdDecode_eq_some_iff {offset : U32} {r : GicdReg} :
    gicdDecode offset = some r ↔ r.first ≤ offset ∧ offset ≤ r.last := by
  constructor
  · intro h
    simpa using List.find?_some h
  · intro h
    cases hdecode : gicdDecode offset with
    | none =>
        have hnone := List.find?_eq_none.mp hdecode r (mem_gicdRegs r)
        exact absurd h (by simpa using hnone)
    | some r' =>
        have h' : r'.first ≤ offset ∧ offset ≤ r'.last := by simpa using List.find?_some hdecode
        by_contra hne
        rcases gicdRegs_disjoint r (mem_gicdRegs r) r' (mem_gicdRegs r')
          (fun heq => hne (by rw [heq])) with hlt | hlt
        · exact absurd (BitVec.le_trans h'.1 h.2) (BitVec.not_le.mpr hlt)
        · exact absurd (BitVec.le_trans h.1 h'.2) (BitVec.not_le.mpr hlt)

/-- The word of an offset is at most the one that its case ends with. -/
theorem toNat_word_le {r : GicdReg} {offset : U32} (h : gicdDecode offset = some r) :
    (r.word offset).toNat ≤ (r.last.toNat - r.first.toNat) / 4 := by
  obtain ⟨hfirst, hlast⟩ := gicdDecode_eq_some_iff.mp h
  rw [BitVec.le_def] at hlast
  rw [GicdReg.word, BitVec.toNat_ushiftRight, BitVec.toNat_sub_of_le hfirst,
    Nat.shiftRight_eq_div_pow]
  exact Nat.div_le_div_right (Nat.sub_le_sub_right hlast _)

theorem pastEnd_iff {offset : U32} :
    PastEnd offset ↔
      (gicdDecode offset = some .icfgr ∧ 64 ≤ (offset - GicdReg.icfgr.first).toNat) ∨
      (gicdDecode offset = some .cpendsgir ∧ 4 ≤ (offset - GicdReg.cpendsgir.first).toNat) ∨
      (gicdDecode offset = some .spendsgir ∧ 4 ≤ (offset - GicdReg.spendsgir.first).toNat) := by
  have hcase : ∀ (r : GicdReg) (k : U32), r.first.toNat + k.toNat < 2 ^ 32 →
      (r.first + k ≤ offset ∧ offset ≤ r.last ↔
        gicdDecode offset = some r ∧ k.toNat ≤ (offset - r.first).toNat) := by
    intro r k hk
    have hsum : (r.first + k).toNat = r.first.toNat + k.toNat :=
      (BitVec.toNat_add _ _).trans (Nat.mod_eq_of_lt hk)
    rw [gicdDecode_eq_some_iff, BitVec.le_def, BitVec.le_def, BitVec.le_def, hsum]
    constructor
    · rintro ⟨hle, hlast⟩
      have hfirst : r.first ≤ offset := by
        rw [BitVec.le_def]
        omega
      rw [BitVec.toNat_sub_of_le hfirst]
      omega
    · rintro ⟨⟨hfirst, hlast⟩, hle⟩
      rw [BitVec.toNat_sub_of_le (BitVec.le_def.mpr hfirst)] at hle
      omega
  rw [PastEnd]
  exact or_congr (hcase .icfgr 64 (by decide))
    (or_congr (hcase .cpendsgir 4 (by decide)) (hcase .spendsgir 4 (by decide)))

/-! ## Accesses -/

variable {α β : Type}

theorem inBounds_ok (a : α) : InBounds (.ok a) := fun h => by simp at h

theorem inBounds_bind {x : Except VgicdFault α} {f : α → Except VgicdFault β} (hx : InBounds x)
    (hf : ∀ a, InBounds (f a)) : InBounds (x >>= f) := by
  cases x with
  | error fault => exact fun h => hx (congrArg Except.error (Except.error.inj h))
  | ok a => exact hf a

theorem inBounds_of_bind {x : Except VgicdFault α} {f : α → Except VgicdFault β}
    (h : InBounds (x >>= f)) : InBounds x := by
  rintro rfl
  exact h rfl

theorem inBounds_index {k : ℕ} (a : Fin k → α) {i : ℕ} : InBounds (index a i) ↔ i < k := by
  rw [index]
  by_cases hi : i < k
  · rw [Cells.get_of_lt a hi]
    exact iff_of_true (inBounds_ok _) hi
  · rw [Cells.get_of_le a (Nat.le_of_not_lt hi)]
    exact iff_of_false (fun h => h rfl) hi

theorem inBounds_assign {k : ℕ} (a : Fin k → α) {i : ℕ} (x : α) :
    InBounds (assign a i x) ↔ i < k := by
  rw [assign]
  by_cases hi : i < k
  · rw [Cells.set_of_lt a hi]
    exact iff_of_true (inBounds_ok _) hi
  · rw [Cells.set_of_le a (Nat.le_of_not_lt hi)]
    exact iff_of_false (fun h => h rfl) hi

theorem inBounds_index₂ {k l : ℕ} (a : Fin k → Fin l → α) (i : Fin k) {j : ℕ} :
    InBounds (index₂ a i j) ↔ j < l := by
  rw [index₂, index_val]
  exact inBounds_index (a i)

theorem inBounds_assign₂ {k l : ℕ} (a : Fin k → Fin l → α) (i : Fin k) {j : ℕ} (x : α) :
    InBounds (assign₂ a i j x) ↔ j < l := by
  rw [assign₂, index_val]
  change InBounds (assign (a i) j x >>= assign a i) ↔ j < l
  constructor
  · exact fun h => (inBounds_assign (a i) x).mp (inBounds_of_bind h)
  · exact fun h => inBounds_bind ((inBounds_assign (a i) x).mpr h) fun row => by
      rw [assign_val]
      exact inBounds_ok _

theorem inBounds_map {x : Except VgicdFault α} (hx : InBounds x) (f : α → β) :
    InBounds (x.map f) := by
  cases x with
  | error fault => exact fun h => hx (congrArg Except.error (Except.error.inj h))
  | ok a => exact inBounds_ok _

theorem inBounds_orFault_map (x : Option α) : InBounds (orFault .map x) := by
  cases x with
  | none => exact fun h => by simp [orFault] at h
  | some a => exact inBounds_ok a

theorem inBounds_setEnable (vcpuid : ℕ) (currentStatus n oldStatus : U32) (σ : VgicdState) :
    InBounds (σ.setEnable vcpuid currentStatus n oldStatus) :=
  inBounds_map (inBounds_orFault_map _) _

theorem inBounds_setClear (vcpuid : ℕ) (currentStatus n oldStatus : U32) (σ : VgicdState) :
    InBounds (σ.setClear vcpuid currentStatus n oldStatus) :=
  inBounds_map (inBounds_orFault_map _) _

theorem inBounds_assign_bind {k : ℕ} (a : Fin k → α) {i : ℕ} (hi : i < k) (x : α)
    (f : (Fin k → α) → β) :
    InBounds (assign a i x >>= fun a => (.ok (f a) : Except VgicdFault β)) :=
  inBounds_bind ((inBounds_assign a x).mpr hi) fun _ => inBounds_ok _

/-! ## The handlers -/

theorem inBounds_index_assign {k : ℕ} (a : Fin k → α) {i : ℕ} (hi : i < k) (x : α → α)
    {f : α → (Fin k → α) → Except VgicdFault β} (hf : ∀ old a, InBounds (f old a)) :
    InBounds (index a i >>= fun old => assign a i (x old) >>= f old) :=
  inBounds_bind ((inBounds_index a).mpr hi) fun old =>
    inBounds_bind ((inBounds_assign a _).mpr hi) (hf old)

theorem inBounds_assign₂_bind {k l : ℕ} (a : Fin k → Fin l → α) (i : Fin k) {j : ℕ} (x : α)
    (f : (Fin k → Fin l → α) → β) :
    InBounds (assign₂ a i j x >>= fun a => (.ok (f a) : Except VgicdFault β)) ↔ j < l :=
  ⟨fun h => (inBounds_assign₂ a i x).mp (inBounds_of_bind h),
    fun h => inBounds_bind ((inBounds_assign₂ a i x).mpr h) fun _ => inBounds_ok _⟩

/-- The write handler leaves an array exactly at the offsets past an end. -/
theorem write_inBounds_iff (env : VgicdEnv) (k : Fin 8) (offset value : U32) (σ : VgicdState) :
    InBounds (vgicdWriteHandler env k offset value σ) ↔ ¬ PastEnd offset := by
  rw [pastEnd_iff, vgicdWriteHandler]
  cases hdecode : gicdDecode offset with
  | none => exact iff_of_true (inBounds_ok _) (by simp)
  | some r =>
      have hword := toNat_word_le hdecode
      cases r
      case icfgr =>
        have hone : offset - GicdReg.icfgr.first = 1 → (offset - GicdReg.icfgr.first).toNat < 64 :=
          fun h => by rw [h]; decide
        simp only [Option.some.injEq, reduceCtorEq, true_and, false_and, or_false, not_le]
        by_cases hn : offset - GicdReg.icfgr.first = 1
        · rw [if_pos hn]
          exact iff_of_true (inBounds_assign_bind _ k.isLt _ _) (hone hn)
        · rw [if_neg hn]
          exact ⟨fun h => (inBounds_assign _ _).mp (inBounds_of_bind h),
            fun h => inBounds_assign_bind _ h _ _⟩
      case cpendsgir =>
        simp only [Option.some.injEq, reduceCtorEq, true_and, false_and, or_false, false_or, not_le]
        exact inBounds_assign₂_bind _ k _ _
      case spendsgir =>
        simp only [Option.some.injEq, reduceCtorEq, true_and, false_and, false_or, not_le]
        exact inBounds_assign₂_bind _ k _ _
      all_goals refine iff_of_true ?_ (by simp)
      case igroupr =>
        dsimp only
        split
        · exact inBounds_assign_bind _ k.isLt _ _
        · split
          · exact inBounds_assign_bind _ (hword.trans_lt (by decide)) _ _
          · exact inBounds_ok _
      case isenabler =>
        dsimp only
        split
        · exact inBounds_index_assign _ k.isLt _ fun _ _ => inBounds_setEnable _ _ _ _ _
        · exact inBounds_index_assign _ (hword.trans_lt (by decide)) _
            fun _ _ => inBounds_setEnable _ _ _ _ _
      case icenabler =>
        dsimp only
        split
        · exact inBounds_index_assign _ k.isLt _ fun _ _ => inBounds_setClear _ _ _ _ _
        · exact inBounds_index_assign _ (hword.trans_lt (by decide)) _
            fun _ _ => inBounds_setClear _ _ _ _ _
      case ispendr =>
        dsimp only
        split
        · exact inBounds_index_assign _ k.isLt _ fun _ _ => inBounds_ok _
        · exact inBounds_index_assign _ (hword.trans_lt (by decide)) _ fun _ _ => inBounds_ok _
      case icpendr =>
        dsimp only
        split
        · exact inBounds_assign_bind _ k.isLt _ _
        · exact inBounds_assign_bind _ (hword.trans_lt (by decide)) _ _
      case ipriorityr =>
        dsimp only
        split
        · next hn => exact (inBounds_assign₂_bind _ k _ _).mpr (BitVec.lt_def.mp hn)
        · exact inBounds_assign_bind _ (hword.trans_lt (by decide)) _ _
      case itargetsr =>
        dsimp only
        split
        · next hn =>
            refine inBounds_bind ((inBounds_index₂ _ k).mpr (BitVec.lt_def.mp hn)) fun _ => ?_
            exact (inBounds_assign₂_bind _ k _ _).mpr (BitVec.lt_def.mp hn)
        · exact inBounds_index_assign _ (hword.trans_lt (by decide)) _ fun _ _ => inBounds_ok _
      all_goals exact inBounds_ok _

theorem read_inBounds_iff (env : VgicdEnv) (k : Fin 8) (offset : U32) (gicd : Vgicd) :
    InBounds (vgicdReadHandler env k offset gicd) ↔ ¬ PastEnd offset := by
  rw [pastEnd_iff, vgicdReadHandler]
  cases hdecode : gicdDecode offset with
  | none => exact iff_of_true (inBounds_ok _) (by simp)
  | some r =>
      have hword := toNat_word_le hdecode
      have hbanked : ∀ (first : Fin 8 → U32) (other : Fin 32 → U32),
          r.last.toNat - r.first.toNat < 128 →
          InBounds (if r.word offset = 0 then index first k
            else index other (r.word offset).toNat) := by
        intro first other hsize
        split
        · exact (inBounds_index _).mpr k.isLt
        · exact (inBounds_index _).mpr (by omega)
      have hrows : ∀ (first : Fin 8 → Fin 8 → U32) (other : Fin 256 → U32),
          r.last.toNat - r.first.toNat < 1024 →
          InBounds (if r.word offset < 8 then index₂ first k (r.word offset).toNat
            else index other (r.word offset).toNat) := by
        intro first other hsize
        split
        · next hn => exact (inBounds_index₂ _ k).mpr (BitVec.lt_def.mp hn)
        · exact (inBounds_index _).mpr (by omega)
      cases r
      case icfgr =>
        simp only [Option.some.injEq, reduceCtorEq, true_and, false_and, or_false, not_le]
        by_cases hn : offset - GicdReg.icfgr.first = 1
        · rw [if_pos hn, hn]
          exact iff_of_true ((inBounds_index _).mpr k.isLt) (by decide)
        · rw [if_neg hn]
          exact inBounds_index _
      case cpendsgir =>
        simp only [Option.some.injEq, reduceCtorEq, true_and, false_and, or_false, false_or, not_le]
        exact inBounds_index₂ _ k
      case spendsgir =>
        simp only [Option.some.injEq, reduceCtorEq, true_and, false_and, false_or, not_le]
        exact inBounds_index₂ _ k
      all_goals refine iff_of_true ?_ (by simp)
      case igroupr =>
        dsimp only
        split
        · exact (inBounds_index _).mpr k.isLt
        · split
          · exact (inBounds_index _).mpr (hword.trans_lt (by decide))
          · exact inBounds_ok _
      case isenabler | icenabler | ispendr | icpendr => exact hbanked _ _ (by decide)
      case ipriorityr | itargetsr => exact hrows _ _ (by decide)
      all_goals exact inBounds_ok _

/-- Both handlers stay within the arrays exactly at the offsets that are not past an end. -/
theorem gicd_arrays_inBounds_iff (env : VgicdEnv) (k : Fin 8) (offset value : U32)
    (σ : VgicdState) :
    InBounds (vgicdWriteHandler env k offset value σ) ∧
        InBounds (vgicdReadHandler env k offset σ.gicd) ↔ ¬ PastEnd offset := by
  rw [write_inBounds_iff, read_inBounds_iff, and_self]

/-- `GICD_ICFGR(16)` is word 16 of the register, and the 65th cell of the array. -/
theorem icfgr_write_leaves_array :
    vgicdWriteHandler ⟨31, 1, 0, fun _ => 0⟩ 0 0xC40 0
      ⟨vgicdCreateInstance 0 0, fun _ => default, [], []⟩ = .error .gicd := rfl

end KHypervisor
