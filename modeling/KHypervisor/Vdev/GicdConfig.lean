import KHypervisor.Lib.Run
import KHypervisor.Vdev.ArrayBounds
import KHypervisor.Vdev.EnableLaw

/-!
# The configuration registers of the virtual distributor

A guest sees `GICD_IGROUPR`, `GICD_IPRIORITYR`, `GICD_ITARGETSR` and `GICD_ICFGR` as words that it
writes and reads back. Behind them are the cells of several arrays, and both handlers find the same
cell for an offset. What goes wrong is that the targets of an interrupt are only ever added to, and
that some offsets lead past the end of an array (`readsBack_iff`).
-/

namespace KHypervisor

open Run

def WordOffset (offset : U32) : Prop := offset.toNat % 4 = 0

instance (offset : U32) : Decidable (WordOffset offset) := inferInstanceAs (Decidable (_ = _))

/-- The offsets of `GICD_IGROUPR`, `GICD_IPRIORITYR`, `GICD_ITARGETSR(n)` for `n` from 8 on, and
`GICD_ICFGR`. -/
def IsConfigOffset (offset : U32) : Prop :=
  WordOffset offset ∧ (gicdDecode offset = some .igroupr ∨ gicdDecode offset = some .ipriorityr ∨
    (gicdDecode offset = some .itargetsr ∧ 8 ≤ GicdReg.itargetsr.word offset) ∨
    gicdDecode offset = some .icfgr)

/-- The offsets of `GICD_CPENDSGIR` and `GICD_SPENDSGIR`. -/
def IsPendOffset (offset : U32) : Prop :=
  WordOffset offset ∧
    (gicdDecode offset = some .cpendsgir ∨ gicdDecode offset = some .spendsgir)

/-- The offsets that every virtual processor has a register of its own at: `GICD_IGROUPR(0)` and the
first eight of `GICD_IPRIORITYR`. -/
def Banked (offset : U32) : Prop :=
  (gicdDecode offset = some .igroupr ∧ GicdReg.igroupr.word offset = 0) ∨
    (gicdDecode offset = some .ipriorityr ∧ GicdReg.ipriorityr.word offset < 8)

instance (offset : U32) : Decidable (Banked offset) := inferInstanceAs (Decidable (_ ∨ _))

structure ConfigWrite where
  vcpuid : Fin 8
  offset : U32
  value : U32
  isConfig : IsConfigOffset offset ∨ IsPendOffset offset

/-- What virtual processor `vcpuid` reads at the offset is what the write has written. -/
def ConfigWrite.SameRegister (e : ConfigWrite) (vcpuid : Fin 8) (offset : U32) : Prop :=
  offset = e.offset ∧ (Banked offset → vcpuid = e.vcpuid)

instance (e : ConfigWrite) (vcpuid : Fin 8) (offset : U32) :
    Decidable (e.SameRegister vcpuid offset) :=
  inferInstanceAs (Decidable (_ ∧ _))

def vgicdConfigStep (env : VgicdEnv) (σ : VgicdState) (e : ConfigWrite) : Option VgicdState :=
  (vgicdWriteHandler env e.vcpuid e.offset e.value σ).toOption

def lastWritten (vcpuid : Fin 8) (offset : U32) : List ConfigWrite → Option U32
  | [] => none
  | e :: es => (lastWritten vcpuid offset es).or
      (if e.SameRegister vcpuid offset then some e.value else none)

/-- After each of the writes every register reads back what was last written to it, and what it read
back at first where nothing was. -/
def ReadsBack (env : VgicdEnv) (σ : VgicdState) (es : List ConfigWrite) : Prop :=
  ∀ done, done <+: es → ∃ τ, run (vgicdConfigStep env) σ done = some τ ∧
    ∀ (vcpuid : Fin 8) offset, IsConfigOffset offset →
      vgicdReadHandler env vcpuid offset τ.gicd =
        (lastWritten vcpuid offset done).elim (vgicdReadHandler env vcpuid offset σ.gicd) .ok

/-- The write goes past the end of an array, or to an interrupt with targets that it leaves out. -/
def LosesValue (env : VgicdEnv) (σ : VgicdState) (e : ConfigWrite) : Prop :=
  PastEnd e.offset ∨ (gicdDecode e.offset = some .itargetsr ∧
    ∃ old, vgicdReadHandler env e.vcpuid e.offset σ.gicd = .ok old ∧ old ||| e.value ≠ e.value)

/-- The number of interrupt lines that `gic_init` computes of what `GICD_TYPER` reads. -/
def gicItLinesNumber (typer : U32) : U32 := 32 * ((typer &&& 0x1F) + 1)

/-! ## The cells -/

inductive ConfigCell
  | igroupr0 (vcpuid : Fin 8)
  | igroupr (n : Fin 32)
  | ipriorityr0 (vcpuid n : Fin 8)
  | ipriorityr (n : Fin 256)
  | itargetsr (n : Fin 256)
  | icfgr (n : Fin 64)
deriving DecidableEq

namespace ConfigCell

def get (gicd : Vgicd) : ConfigCell → U32
  | igroupr0 vcpuid => gicd.igroupr0 vcpuid
  | igroupr n => gicd.igroupr n
  | ipriorityr0 vcpuid n => gicd.ipriorityr0 vcpuid n
  | ipriorityr n => gicd.ipriorityr n
  | itargetsr n => gicd.itargetsr n
  | icfgr n => gicd.icfgr n

def set (gicd : Vgicd) (x : U32) : ConfigCell → Vgicd
  | igroupr0 vcpuid => { gicd with igroupr0 := Function.update gicd.igroupr0 vcpuid x }
  | igroupr n => { gicd with igroupr := Function.update gicd.igroupr n x }
  | ipriorityr0 vcpuid n => { gicd with
      ipriorityr0 := Function.update gicd.ipriorityr0 vcpuid
        (Function.update (gicd.ipriorityr0 vcpuid) n x) }
  | ipriorityr n => { gicd with ipriorityr := Function.update gicd.ipriorityr n x }
  | itargetsr n => { gicd with itargetsr := Function.update gicd.itargetsr n x }
  | icfgr n => { gicd with icfgr := Function.update gicd.icfgr n x }

theorem get_set_self (gicd : Vgicd) (x : U32) (c : ConfigCell) : (c.set gicd x |> c.get) = x := by
  cases c <;> simp [get, set]

theorem get_set_of_ne (gicd : Vgicd) (x : U32) {c c' : ConfigCell} (h : c' ≠ c) :
    c'.get (c.set gicd x) = c'.get gicd := by
  cases c <;> cases c'
  case ipriorityr0.ipriorityr0 vcpuid n vcpuid' n' =>
    by_cases hv : vcpuid' = vcpuid
    · have hn : n' ≠ n := fun hn => h (by rw [hv, hn])
      simp [get, set, hv, Function.update_of_ne hn]
    · simp [get, set, Function.update_of_ne hv]
  all_goals simp_all [get, set, Function.update_of_ne]

/-- What a write leaves in a cell that held `old`. -/
def written (old value : U32) : ConfigCell → U32
  | itargetsr _ => old ||| value
  | _ => value

end ConfigCell

def cellAt (vcpuid : Fin 8) (offset : U32) : Option ConfigCell :=
  match gicdDecode offset with
  | some .igroupr =>
      let n := GicdReg.igroupr.word offset
      if n = 0 then some (.igroupr0 vcpuid) else Cells.get .igroupr n.toNat
  | some .ipriorityr =>
      let n := GicdReg.ipriorityr.word offset
      if n < 8 then Cells.get (.ipriorityr0 vcpuid) n.toNat else Cells.get .ipriorityr n.toNat
  | some .itargetsr => Cells.get .itargetsr (GicdReg.itargetsr.word offset).toNat
  | some .icfgr => Cells.get .icfgr (offset - GicdReg.icfgr.first).toNat
  | _ => none

variable {env : VgicdEnv} {vcpuid vcpuid' : Fin 8} {offset offset' typer value : U32}
  {σ : VgicdState} {gicd : Vgicd} {c : ConfigCell}

/-- No word of the register has a number beyond the lines that there are. -/
theorem word_lt_itLinesNumber (h : gicdDecode offset = some .igroupr) (typer : U32) :
    GicdReg.igroupr.word offset < gicItLinesNumber typer + 1 := by
  have hword := toNat_word_le h
  have hlines : (typer &&& 0x1F).toNat ≤ 31 := by
    rw [BitVec.toNat_and]
    exact Nat.and_le_right
  have hsmall : GicdReg.igroupr.last.toNat - GicdReg.igroupr.first.toNat = 124 := by decide
  rw [BitVec.lt_def, gicItLinesNumber]
  generalize typer &&& 0x1F = lines at hlines
  bv_omega

/-- The offset of the banked cells of `GICD_ICFGR` is not that of a word. -/
theorem WordOffset.icfgr_ne_one (h : WordOffset offset) : offset - GicdReg.icfgr.first ≠ 1 := by
  intro hone
  rw [WordOffset, BitVec.sub_eq_iff_eq_add.mp hone] at h
  exact absurd h (by decide)

theorem index_cells {k : ℕ} (f : Fin k → ConfigCell) (gicd : Vgicd) (n : ℕ) :
    index (fun i => (f i).get gicd) n =
      orFault .gicd ((Cells.get f n).map fun c => c.get gicd) := by
  rw [index]
  by_cases hn : n < k
  · rw [Cells.get_of_lt _ hn, Cells.get_of_lt f hn, Option.map_some]
  · rw [Cells.get_of_le _ (Nat.le_of_not_lt hn), Cells.get_of_le f (Nat.le_of_not_lt hn),
      Option.map_none]

theorem read_eq_cell (h : IsConfigOffset offset) (typer : U32) (gicd : Vgicd) :
    vgicdReadHandler { env with itLinesNumber := gicItLinesNumber typer } vcpuid offset gicd =
      orFault .gicd ((cellAt vcpuid offset).map fun c => c.get gicd) := by
  rw [vgicdReadHandler, cellAt]
  rcases h.2 with hreg | hreg | ⟨hreg, hword⟩ | hreg
  · have hlines := word_lt_itLinesNumber hreg typer
    simp only [hreg]
    by_cases hzero : GicdReg.igroupr.word offset = 0
    · rw [if_pos hzero, if_pos hzero, index_val]
      rfl
    · have hpos : 0 < GicdReg.igroupr.word offset := (BitVec.pos_iff_ne_zero _).mpr hzero
      rw [if_neg hzero, if_neg hzero, if_pos ⟨hpos, hlines⟩]
      exact index_cells ConfigCell.igroupr gicd _
  · simp only [hreg]
    by_cases hlow : GicdReg.ipriorityr.word offset < 8
    · rw [if_pos hlow, if_pos hlow, index₂, index_val]
      exact index_cells (ConfigCell.ipriorityr0 vcpuid) gicd _
    · rw [if_neg hlow, if_neg hlow]
      exact index_cells ConfigCell.ipriorityr gicd _
  · simp only [hreg]
    rw [if_neg (BitVec.not_lt.mpr hword)]
    exact index_cells ConfigCell.itargetsr gicd _
  · simp only [hreg]
    rw [if_neg h.1.icfgr_ne_one]
    exact index_cells ConfigCell.icfgr gicd _

theorem assign_cells {k : ℕ} (f : Fin k → ConfigCell) {a : Fin k → U32} {x : U32}
    {F : (Fin k → U32) → VgicdState} {G : ConfigCell → VgicdState}
    (h : ∀ i, F (Function.update a i x) = G (f i)) (n : ℕ) :
    (assign a n x >>= fun a => (.ok (F a) : Except VgicdFault VgicdState)) =
      orFault .gicd ((Cells.get f n).map G) := by
  rw [assign]
  by_cases hn : n < k
  · rw [Cells.set_of_lt _ hn, Cells.get_of_lt f hn, Option.map_some, ← h]
    rfl
  · rw [Cells.set_of_le _ (Nat.le_of_not_lt hn), Cells.get_of_le f (Nat.le_of_not_lt hn),
      Option.map_none]
    rfl

theorem index_assign_cells {k : ℕ} (f : Fin k → ConfigCell) {a : Fin k → U32} (x : U32 → U32)
    {F : (Fin k → U32) → VgicdState} {G : ConfigCell → VgicdState}
    (h : ∀ i, F (Function.update a i (x (a i))) = G (f i)) (n : ℕ) :
    (index a n >>= fun old => assign a n (x old) >>= fun a =>
        (.ok (F a) : Except VgicdFault VgicdState)) = orFault .gicd ((Cells.get f n).map G) := by
  rw [index]
  by_cases hn : n < k
  · rw [Cells.get_of_lt a hn, Cells.get_of_lt f hn, Option.map_some, ← h]
    dsimp only [orFault, bind, Except.bind]
    rw [assign, Cells.set_of_lt _ hn]
    rfl
  · rw [Cells.get_of_le a (Nat.le_of_not_lt hn), Cells.get_of_le f (Nat.le_of_not_lt hn),
      Option.map_none]
    rfl

theorem write_eq_cell (h : IsConfigOffset offset) (typer value : U32) (σ : VgicdState) :
    vgicdWriteHandler { env with itLinesNumber := gicItLinesNumber typer } vcpuid offset value σ =
      orFault .gicd ((cellAt vcpuid offset).map fun c =>
        σ.setGicd (c.set σ.gicd (c.written (c.get σ.gicd) value))) := by
  rw [vgicdWriteHandler, cellAt]
  rcases h.2 with hreg | hreg | ⟨hreg, hword⟩ | hreg
  · have hlines := word_lt_itLinesNumber hreg typer
    simp only [hreg]
    by_cases hzero : GicdReg.igroupr.word offset = 0
    · rw [if_pos hzero, if_pos hzero, assign_val]
      rfl
    · have hpos : 0 < GicdReg.igroupr.word offset := (BitVec.pos_iff_ne_zero _).mpr hzero
      rw [if_neg hzero, if_neg hzero, if_pos ⟨hpos, hlines⟩]
      exact assign_cells ConfigCell.igroupr (fun _ => rfl) _
  · simp only [hreg]
    by_cases hlow : GicdReg.ipriorityr.word offset < 8
    · rw [if_pos hlow, if_pos hlow, assign₂, index_val, ← assign_cells
        (ConfigCell.ipriorityr0 vcpuid) (a := σ.gicd.ipriorityr0 vcpuid) (x := value)
        (F := fun row => σ.setGicd { σ.gicd with
          ipriorityr0 := Function.update σ.gicd.ipriorityr0 vcpuid row }) fun _ => rfl]
      dsimp only [Except.bind]
      cases assign (σ.gicd.ipriorityr0 vcpuid) (GicdReg.ipriorityr.word offset).toNat value with
      | error fault => rfl
      | ok row => simp only [bind, Except.bind, assign_val, pure, Except.pure]
    · rw [if_neg hlow, if_neg hlow]
      exact assign_cells ConfigCell.ipriorityr (fun _ => rfl) _
  · simp only [hreg]
    rw [if_neg (BitVec.not_lt.mpr hword)]
    exact index_assign_cells ConfigCell.itargetsr (· ||| value) (fun _ => rfl) _
  · simp only [hreg]
    rw [if_neg h.1.icfgr_ne_one]
    exact assign_cells ConfigCell.icfgr (fun _ => rfl) _

/-! ## Which offsets share a cell -/

theorem aligned_word_inj {r : GicdReg} (h : WordOffset offset) (h' : WordOffset offset')
    (hreg : gicdDecode offset = some r) (hreg' : gicdDecode offset' = some r)
    (hword : (r.word offset).toNat = (r.word offset').toNat) : offset = offset' := by
  have hfirst : r.first.toNat % 4 = 0 := by cases r <;> decide
  have hle := (gicdDecode_eq_some_iff.mp hreg).1
  have hle' := (gicdDecode_eq_some_iff.mp hreg').1
  rw [GicdReg.word, GicdReg.word, BitVec.toNat_ushiftRight, BitVec.toNat_ushiftRight,
    BitVec.toNat_sub_of_le hle, BitVec.toNat_sub_of_le hle', Nat.shiftRight_eq_div_pow,
    Nat.shiftRight_eq_div_pow] at hword
  rw [BitVec.le_def] at hle hle'
  rw [WordOffset] at h h'
  exact BitVec.eq_of_toNat_eq (by omega)

/-- The cell is that of the offset, for the virtual processor. -/
def ConfigCell.IsAt (vcpuid : Fin 8) (offset : U32) : ConfigCell → Prop
  | igroupr0 v => v = vcpuid ∧ gicdDecode offset = some .igroupr ∧
      (GicdReg.igroupr.word offset).toNat = 0
  | igroupr n => gicdDecode offset = some .igroupr ∧ 0 < n.val ∧
      (GicdReg.igroupr.word offset).toNat = n
  | ipriorityr0 v n => v = vcpuid ∧ gicdDecode offset = some .ipriorityr ∧
      (GicdReg.ipriorityr.word offset).toNat = n
  | ipriorityr n => gicdDecode offset = some .ipriorityr ∧ 8 ≤ n.val ∧
      (GicdReg.ipriorityr.word offset).toNat = n
  | itargetsr n => gicdDecode offset = some .itargetsr ∧
      (GicdReg.itargetsr.word offset).toNat = n
  | icfgr n => gicdDecode offset = some .icfgr ∧ (offset - GicdReg.icfgr.first).toNat = n

theorem isAt_of_cellAt (h : cellAt vcpuid offset = some c) : c.IsAt vcpuid offset := by
  rw [cellAt] at h
  split at h
  · rename_i hreg
    dsimp only at h
    split at h
    · rename_i hzero
      obtain rfl := Option.some.inj h
      exact ⟨rfl, hreg, by rw [hzero]; rfl⟩
    · rename_i hzero
      obtain ⟨n, hn, rfl⟩ := Cells.get_eq_some.mp h
      have hpos := BitVec.lt_def.mp ((BitVec.pos_iff_ne_zero _).mpr hzero)
      exact ⟨hreg, hn ▸ hpos, hn⟩
  · rename_i hreg
    dsimp only at h
    split at h
    · obtain ⟨n, hn, rfl⟩ := Cells.get_eq_some.mp h
      exact ⟨rfl, hreg, hn⟩
    · rename_i hlow
      obtain ⟨n, hn, rfl⟩ := Cells.get_eq_some.mp h
      have hle := BitVec.le_def.mp (BitVec.not_lt.mp hlow)
      exact ⟨hreg, hn ▸ hle, hn⟩
  · rename_i hreg
    obtain ⟨n, hn, rfl⟩ := Cells.get_eq_some.mp h
    exact ⟨hreg, hn⟩
  · rename_i hreg
    obtain ⟨n, hn, rfl⟩ := Cells.get_eq_some.mp h
    exact ⟨hreg, hn⟩
  · cases h

theorem Banked.igroupr (h : Banked offset) (hreg : gicdDecode offset = some .igroupr) :
    (GicdReg.igroupr.word offset).toNat = 0 := by
  rcases h with ⟨-, hzero⟩ | ⟨hother, -⟩
  · rw [hzero]
    rfl
  · rw [hreg] at hother
    cases hother

theorem Banked.ipriorityr (h : Banked offset) (hreg : gicdDecode offset = some .ipriorityr) :
    (GicdReg.ipriorityr.word offset).toNat < 8 := by
  rcases h with ⟨hother, -⟩ | ⟨-, hlow⟩
  · rw [hreg] at hother
    cases hother
  · exact BitVec.lt_def.mp hlow

theorem Banked.cases (h : Banked offset) :
    gicdDecode offset = some .igroupr ∨ gicdDecode offset = some .ipriorityr :=
  h.imp And.left And.left

theorem isAt_inj (h : WordOffset offset) (h' : WordOffset offset') (hc : c.IsAt vcpuid offset)
    (hc' : c.IsAt vcpuid' offset') :
    offset' = offset ∧ (Banked offset' → vcpuid' = vcpuid) := by
  cases c with
  | igroupr0 v =>
      exact ⟨aligned_word_inj h' h hc'.2.1 hc.2.1 (hc'.2.2.trans hc.2.2.symm),
        fun _ => hc'.1.symm.trans hc.1⟩
  | igroupr n =>
      refine ⟨aligned_word_inj h' h hc'.1 hc.1 (hc'.2.2.trans hc.2.2.symm), fun hbanked => ?_⟩
      have hzero := hbanked.igroupr hc'.1
      rw [hc'.2.2] at hzero
      exact absurd hzero (Nat.ne_of_gt hc'.2.1)
  | ipriorityr0 v n =>
      exact ⟨aligned_word_inj h' h hc'.2.1 hc.2.1 (hc'.2.2.trans hc.2.2.symm),
        fun _ => hc'.1.symm.trans hc.1⟩
  | ipriorityr n =>
      refine ⟨aligned_word_inj h' h hc'.1 hc.1 (hc'.2.2.trans hc.2.2.symm), fun hbanked => ?_⟩
      have hlow := hbanked.ipriorityr hc'.1
      rw [hc'.2.2] at hlow
      exact absurd hlow (Nat.not_lt.mpr hc'.2.1)
  | itargetsr n =>
      refine ⟨aligned_word_inj h' h hc'.1 hc.1 (hc'.2.trans hc.2.symm), fun hbanked => ?_⟩
      rcases hbanked.cases with hreg | hreg <;> simp [hc'.1] at hreg
  | icfgr n =>
      have hsame := BitVec.eq_of_toNat_eq (hc'.2.trans hc.2.symm)
      have heq := BitVec.sub_eq_iff_eq_add.mp hsame
      rw [BitVec.sub_add_cancel] at heq
      refine ⟨heq, fun hbanked => ?_⟩
      rcases hbanked.cases with hreg | hreg <;> simp [hc'.1] at hreg

/-- A virtual processor other than the one that has written finds another cell at a banked offset,
and the same one at all others. -/
theorem cellAt_congr (h : Banked offset → vcpuid' = vcpuid) :
    cellAt vcpuid' offset = cellAt vcpuid offset := by
  by_cases hbanked : Banked offset
  · rw [h hbanked]
  · have hnot := not_or.mp hbanked
    rw [cellAt, cellAt]
    split
    · rename_i hreg
      have hzero : GicdReg.igroupr.word offset ≠ 0 := fun hz => hnot.1 ⟨hreg, hz⟩
      dsimp only
      rw [if_neg hzero, if_neg hzero]
    · rename_i hreg
      have hlow : ¬ GicdReg.ipriorityr.word offset < 8 := fun hl => hnot.2 ⟨hreg, hl⟩
      dsimp only
      rw [if_neg hlow, if_neg hlow]
    · rfl
    · rfl
    · rfl

/-! ## Writes -/

/-- The surroundings of the handlers on a distributor that reads `typer`. -/
abbrev VgicdEnv.withTyper (env : VgicdEnv) (typer : U32) : VgicdEnv :=
  { env with itLinesNumber := gicItLinesNumber typer }

/-- The register that was written reads back the value, and all others what they read before. -/
structure ConfigLaw (env : VgicdEnv) (σ : VgicdState) (e : ConfigWrite) (τ : VgicdState) :
    Prop where
  written : ∀ (vcpuid : Fin 8) offset, IsConfigOffset offset → e.SameRegister vcpuid offset →
    vgicdReadHandler env vcpuid offset τ.gicd = .ok e.value
  others : ∀ (vcpuid : Fin 8) offset, IsConfigOffset offset → ¬ e.SameRegister vcpuid offset →
    vgicdReadHandler env vcpuid offset τ.gicd = vgicdReadHandler env vcpuid offset σ.gicd

variable {e : ConfigWrite}

theorem cellAt_eq_none_iff (h : IsConfigOffset offset) :
    cellAt vcpuid offset = none ↔ PastEnd offset := by
  have hbounds := read_inBounds_iff (VgicdEnv.withTyper ⟨0, 0, 0, fun _ => 0⟩ 0) vcpuid offset
    (vgicdCreateInstance 0 0)
  rw [read_eq_cell h] at hbounds
  rw [← not_iff_not, ← hbounds]
  cases cellAt vcpuid offset with
  | none => exact iff_of_false (not_not.mpr rfl) fun hin => hin rfl
  | some c => exact iff_of_true (by simp) (inBounds_ok _)

/-- The value that the write leaves is the one written, unless there are targets left out. -/
theorem written_eq_iff (h : IsConfigOffset e.offset) (hc : cellAt e.vcpuid e.offset = some c)
    (env : VgicdEnv) (typer : U32) (σ : VgicdState) :
    c.written (c.get σ.gicd) e.value = e.value ↔ ¬ LosesValue (env.withTyper typer) σ e := by
  have hread : vgicdReadHandler (env.withTyper typer) e.vcpuid e.offset σ.gicd =
      .ok (c.get σ.gicd) := by
    rw [read_eq_cell h, hc]
    rfl
  have hin : ¬ PastEnd e.offset := by
    have hnone : cellAt e.vcpuid e.offset = none ↔ PastEnd e.offset := cellAt_eq_none_iff h
    rw [← hnone, hc]
    simp
  rw [LosesValue, or_iff_right hin, hread]
  have hat := isAt_of_cellAt hc
  have hother : ∀ r, gicdDecode e.offset = some r → r ≠ .itargetsr →
      (e.value = e.value ↔ ¬ (gicdDecode e.offset = some .itargetsr ∧ ∃ old,
        (.ok (c.get σ.gicd) : Except VgicdFault U32) = .ok old ∧ old ||| e.value ≠ e.value)) := by
    intro r hreg hne
    refine iff_of_true rfl fun hlost => hne ?_
    exact Option.some.inj (hreg.symm.trans hlost.1)
  cases c with
  | igroupr0 v => exact hother .igroupr hat.2.1 (by decide)
  | igroupr n => exact hother .igroupr hat.1 (by decide)
  | ipriorityr0 v n => exact hother .ipriorityr hat.2.1 (by decide)
  | ipriorityr n => exact hother .ipriorityr hat.1 (by decide)
  | icfgr n => exact hother .icfgr hat.1 (by decide)
  | itargetsr n =>
      constructor
      · rintro hkeeps ⟨-, old, hold, hlost⟩
        obtain rfl := Except.ok.inj hold
        exact hlost hkeeps
      · intro hkeeps
        by_contra hlost
        exact hkeeps ⟨hat.1, _, rfl, hlost⟩

theorem vgicdConfigStep_of_cell (h : IsConfigOffset e.offset)
    (hc : cellAt e.vcpuid e.offset = some c) (env : VgicdEnv) (typer : U32) (σ : VgicdState) :
    vgicdConfigStep (env.withTyper typer) σ e =
      some (σ.setGicd (c.set σ.gicd (c.written (c.get σ.gicd) e.value))) := by
  rw [vgicdConfigStep, write_eq_cell h, hc]
  rfl

/-- It changes what is read at its offset, and for a banked one by the virtual processor that has
written. -/
theorem read_after_write (h : IsConfigOffset e.offset) (hc : cellAt e.vcpuid e.offset = some c)
    (env : VgicdEnv) (typer : U32) (x : U32) (gicd : Vgicd) (hoffset : IsConfigOffset offset) :
    (e.SameRegister vcpuid offset →
      vgicdReadHandler (env.withTyper typer) vcpuid offset (c.set gicd x) = .ok x) ∧
    (¬ e.SameRegister vcpuid offset →
      vgicdReadHandler (env.withTyper typer) vcpuid offset (c.set gicd x) =
        vgicdReadHandler (env.withTyper typer) vcpuid offset gicd) := by
  rw [read_eq_cell hoffset, read_eq_cell hoffset]
  constructor
  · rintro ⟨rfl, hbanked⟩
    rw [cellAt_congr hbanked, hc, Option.map_some, ConfigCell.get_set_self]
    rfl
  · intro hnot
    refine congrArg (orFault .gicd) (Option.map_congr fun c' hc' => ConfigCell.get_set_of_ne _ _ ?_)
    rintro rfl
    exact hnot (isAt_inj h.1 hoffset.1 (isAt_of_cellAt hc) (isAt_of_cellAt hc'))

theorem IsPendOffset.not_config (h : IsPendOffset offset) : ¬ IsConfigOffset offset := by
  rintro ⟨-, hreg | hreg | ⟨hreg, -⟩ | hreg⟩ <;>
    rcases h.2 with hpend | hpend <;> simp [hreg] at hpend

theorem assign₂_of_lt {k l : ℕ} (a : Fin k → Fin l → U32) (i : Fin k) {j : ℕ} (hj : j < l)
    (x : U32) : ∃ b, assign₂ a i j x = .ok b := by
  rw [assign₂, index_val]
  dsimp only [Except.bind]
  rw [assign, Cells.set_of_lt (a i) hj, orFault]
  dsimp only [Except.bind]
  exact ⟨_, assign_val a i _⟩

/-- A write to one of the other two registers is not seen at the configuration registers. -/
theorem vgicdConfigStep_of_pend (h : IsPendOffset e.offset) (hin : ¬ PastEnd e.offset)
    (env : VgicdEnv) (σ : VgicdState) :
    ∃ τ, vgicdConfigStep env σ e = some τ ∧ ∀ c : ConfigCell, c.get τ.gicd = c.get σ.gicd := by
  rw [pastEnd_iff, not_or, not_or] at hin
  rw [vgicdConfigStep, vgicdWriteHandler]
  rcases h.2 with hreg | hreg
  · have hlt : (e.offset - GicdReg.cpendsgir.first).toNat < 4 := by
      by_contra hge
      exact hin.2.1 ⟨hreg, Nat.le_of_not_lt hge⟩
    obtain ⟨b, hb⟩ := assign₂_of_lt σ.gicd.cpendsgir0 e.vcpuid hlt (~~~e.value)
    simp only [hreg, hb]
    exact ⟨_, rfl, fun c => by cases c <;> rfl⟩
  · have hlt : (e.offset - GicdReg.spendsgir.first).toNat < 4 := by
      by_contra hge
      exact hin.2.2 ⟨hreg, Nat.le_of_not_lt hge⟩
    obtain ⟨b, hb⟩ := assign₂_of_lt σ.gicd.spendsgir0 e.vcpuid hlt (~~~e.value)
    simp only [hreg, hb]
    exact ⟨_, rfl, fun c => by cases c <;> rfl⟩

theorem configLaw_step (env : VgicdEnv) (typer : U32) (σ : VgicdState)
    (hkeeps : ¬ LosesValue (env.withTyper typer) σ e) :
    ∃ τ, vgicdConfigStep (env.withTyper typer) σ e = some τ ∧
      ConfigLaw (env.withTyper typer) σ e τ := by
  have hin : ¬ PastEnd e.offset := fun hpast => hkeeps (.inl hpast)
  rcases e.isConfig with h | h
  · obtain ⟨c, hc⟩ : ∃ c, cellAt e.vcpuid e.offset = some c :=
      Option.ne_none_iff_exists'.mp fun hnone => hin ((cellAt_eq_none_iff h).mp hnone)
    refine ⟨_, vgicdConfigStep_of_cell h hc env typer σ, fun vcpuid offset ho hsame => ?_,
      fun vcpuid offset ho hnot => ?_⟩
    · rw [VgicdState.setGicd, (written_eq_iff h hc env typer σ).mpr hkeeps]
      exact (read_after_write h hc env typer e.value σ.gicd ho).1 hsame
    · exact (read_after_write h hc env typer _ σ.gicd ho).2 hnot
  · obtain ⟨τ, hτ, hget⟩ := vgicdConfigStep_of_pend h hin (env.withTyper typer) σ
    refine ⟨τ, hτ, fun vcpuid offset ho hsame => ?_, fun vcpuid offset ho _ => ?_⟩
    · exact absurd (hsame.1 ▸ ho) h.not_config
    · rw [read_eq_cell ho, read_eq_cell ho]
      exact congrArg (orFault .gicd) (Option.map_congr fun c _ => hget c)

theorem not_configLaw (env : VgicdEnv) (typer : U32) {σ τ : VgicdState}
    (hloses : LosesValue (env.withTyper typer) σ e)
    (hτ : vgicdConfigStep (env.withTyper typer) σ e = some τ) :
    ¬ ConfigLaw (env.withTyper typer) σ e τ := by
  intro hlaw
  have hin : ¬ PastEnd e.offset := by
    rw [← write_inBounds_iff (env.withTyper typer) e.vcpuid e.offset e.value σ]
    intro hfault
    rw [vgicdConfigStep, hfault] at hτ
    cases hτ
  have hreg := (hloses.resolve_left hin).1
  have h : IsConfigOffset e.offset := e.isConfig.resolve_right fun hpend => by
    rcases hpend.2 with hpend | hpend <;> simp [hreg] at hpend
  obtain ⟨c, hc⟩ : ∃ c, cellAt e.vcpuid e.offset = some c :=
    Option.ne_none_iff_exists'.mp fun hnone => hin ((cellAt_eq_none_iff h).mp hnone)
  have hself : e.SameRegister e.vcpuid e.offset := ⟨rfl, fun _ => rfl⟩
  obtain rfl := Option.some.inj ((vgicdConfigStep_of_cell h hc env typer σ).symm.trans hτ)
  have hwritten := hlaw.written e.vcpuid e.offset h hself
  have hread := (read_after_write h hc env typer
    (c.written (c.get σ.gicd) e.value) σ.gicd h).1 hself
  exact (written_eq_iff h hc env typer σ).mp (Except.ok.inj (hread.symm.trans hwritten)) hloses

/-! ## Runs -/

theorem configLaw_iff {env : VgicdEnv} {σ τ : VgicdState} :
    ConfigLaw env σ e τ ↔ ∀ (vcpuid : Fin 8) offset, IsConfigOffset offset →
      vgicdReadHandler env vcpuid offset τ.gicd =
        (lastWritten vcpuid offset [e]).elim (vgicdReadHandler env vcpuid offset σ.gicd) .ok := by
  constructor
  · intro hlaw vcpuid offset ho
    rw [lastWritten, lastWritten, Option.none_or]
    by_cases hsame : e.SameRegister vcpuid offset
    · rw [if_pos hsame, Option.elim_some]
      exact hlaw.written vcpuid offset ho hsame
    · rw [if_neg hsame, Option.elim_none]
      exact hlaw.others vcpuid offset ho hsame
  · intro hread
    refine ⟨fun vcpuid offset ho hsame => ?_, fun vcpuid offset ho hnot => ?_⟩
    · rw [hread vcpuid offset ho, lastWritten, lastWritten, Option.none_or, if_pos hsame,
        Option.elim_some]
    · rw [hread vcpuid offset ho, lastWritten, lastWritten, Option.none_or, if_neg hnot,
        Option.elim_none]

theorem elim_or {α β : Type} (a b : Option α) (x : β) (f : α → β) :
    (a.or b).elim x f = a.elim (b.elim x f) f := by
  cases a <;> rfl

/-- After a first write that obeys the law, the rest counts from what is read then. -/
theorem lastWritten_cons_elim {env : VgicdEnv} {σ τ : VgicdState} (hlaw : ConfigLaw env σ e τ)
    (es : List ConfigWrite) (ho : IsConfigOffset offset) :
    (lastWritten vcpuid offset (e :: es)).elim (vgicdReadHandler env vcpuid offset σ.gicd) .ok =
      (lastWritten vcpuid offset es).elim (vgicdReadHandler env vcpuid offset τ.gicd) .ok := by
  rw [configLaw_iff.mp hlaw vcpuid offset ho, lastWritten, lastWritten, lastWritten, Option.none_or,
    elim_or]

/-- What is read back is what was last written exactly if every write obeys the law. -/
theorem readsBack_iff_follows (env : VgicdEnv) (σ : VgicdState) (es : List ConfigWrite) :
    ReadsBack env σ es ↔ Follows (vgicdConfigStep env) (ConfigLaw env) σ es := by
  induction es generalizing σ with
  | nil =>
      refine iff_of_true (fun done hdone => ?_) trivial
      obtain rfl := List.prefix_nil.mp hdone
      exact ⟨σ, rfl, fun _ _ _ => rfl⟩
  | cons e es ih =>
      constructor
      · intro hback
        obtain ⟨τ, hrun, hfirst⟩ := hback [e] ⟨es, rfl⟩
        obtain ⟨_, hτ, hsame⟩ := Option.bind_eq_some_iff.mp hrun
        obtain rfl := Option.some.inj hsame
        have hlaw := configLaw_iff.mpr hfirst
        refine ⟨_, hτ, hlaw, (ih _).mp fun done hdone => ?_⟩
        obtain ⟨υ, hυ, hread⟩ := hback (e :: done) (List.cons_prefix_cons.mpr ⟨rfl, hdone⟩)
        rw [run_cons, hτ, Option.bind_some] at hυ
        refine ⟨υ, hυ, fun vcpuid offset ho => ?_⟩
        rw [hread vcpuid offset ho, lastWritten_cons_elim hlaw done ho]
      · rintro ⟨τ, hτ, hlaw, hrest⟩ done hdone
        cases done with
        | nil => exact ⟨σ, rfl, fun _ _ _ => rfl⟩
        | cons e' done =>
            obtain ⟨rfl, hlater⟩ := List.cons_prefix_cons.mp hdone
            obtain ⟨υ, hυ, hread⟩ := (ih τ).mpr hrest done hlater
            refine ⟨υ, by rw [run_cons, hτ, Option.bind_some, hυ], fun vcpuid offset ho => ?_⟩
            rw [hread vcpuid offset ho, lastWritten_cons_elim hlaw done ho]

/-- For every sequence of writes of the virtual processors of a machine: all configuration registers
read back what was last written to them, banked ones for each virtual processor, exactly if no write
goes past the end of an array and none leaves out a target that an interrupt has. -/
theorem readsBack_iff (env : VgicdEnv) (typer : U32) (σ : VgicdState) (es : List ConfigWrite) :
    ReadsBack (env.withTyper typer) σ es ↔
      ¬ Happened (vgicdConfigStep (env.withTyper typer)) (LosesValue (env.withTyper typer))
        σ es := by
  rw [readsBack_iff_follows]
  exact follows_iff_unless (I := fun _ => True) trivial
    (fun u e _ _ hkeeps => (configLaw_step env typer u hkeeps).imp fun _ h => ⟨h.1, h.2, trivial⟩)
    fun u e _ v _ hloses hv => not_configLaw env typer hloses hv

theorem isConfigOffset_itargetsr : IsConfigOffset 0x820 :=
  ⟨by decide, .inr (.inr (.inl ⟨by decide, by decide⟩))⟩

/-- `GICD_ITARGETSR(8)` is written 0, so that nobody gets interrupts 32 to 35. -/
def clearTargets (vcpuid : Fin 8) : ConfigWrite :=
  ⟨vcpuid, 0x820, 0, .inl isConfigOffset_itargetsr⟩

/-- It still reads that all of them go to the first processor. -/
theorem targets_never_cleared :
    ∃ τ, run (vgicdConfigStep (VgicdEnv.withTyper ⟨0, 1, 0, fun _ => 0⟩ 0))
        (.create false 0 default 0 0) [clearTargets 0] = some τ ∧
      vgicdReadHandler (VgicdEnv.withTyper ⟨0, 1, 0, fun _ => 0⟩ 0) 0 0x820 τ.gicd =
        .ok 0x01010101 ∧ lastWritten 0 0x820 [clearTargets 0] = some 0 ∧
      ¬ ReadsBack (VgicdEnv.withTyper ⟨0, 1, 0, fun _ => 0⟩ 0) (.create false 0 default 0 0)
        [clearTargets 0] := by
  obtain ⟨τ, hτ, hread⟩ : ∃ τ, run (vgicdConfigStep (VgicdEnv.withTyper ⟨0, 1, 0, fun _ => 0⟩ 0))
      (.create false 0 default 0 0) [clearTargets 0] = some τ ∧
      vgicdReadHandler (VgicdEnv.withTyper ⟨0, 1, 0, fun _ => 0⟩ 0) 0 0x820 τ.gicd =
        .ok 0x01010101 := ⟨_, rfl, rfl⟩
  have hlast : lastWritten 0 0x820 [clearTargets 0] = some 0 := by decide
  refine ⟨τ, hτ, hread, hlast, fun hback => ?_⟩
  obtain ⟨υ, hυ, hall⟩ := hback [clearTargets 0] (List.prefix_refl _)
  obtain rfl := Option.some.inj (hτ.symm.trans hυ)
  have hzero := hall 0 0x820 isConfigOffset_itargetsr
  rw [hlast, Option.elim_some] at hzero
  exact absurd (Except.ok.inj (hread.symm.trans hzero)) (by decide)

end KHypervisor
