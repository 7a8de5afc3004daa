import KHypervisor.Vdev.ArrayBounds
import KHypervisor.Vdev.EnableLaw

/-!
# What a guest reaches of the physical distributor

Most registers of the virtual distributor are words of `struct vgicd`. A write to `GICD_ISACTIVER`
or to `GICD_ICACTIVER` is handed on to the physical distributor as it is, and a write to
`GICD_ISENABLER` enables the interrupts of its bits there, under the number of the bit itself where
the map has no physical interrupt for it. This module says when such a write stays away from the
interrupts of the other machines and of the hypervisor.
-/

namespace KHypervisor

open BitScan

/-! ## The physical distributor -/

/-- What the physical distributor has of the interrupts: which ones it has enabled, and which ones
are active. -/
structure PhysGicd where
  enabled : Fin 1024 → Bool
  active : Fin 1024 → Bool

def PhysGicd.bits (d : PhysGicd) (p : Fin 1024) : Bool × Bool := (d.enabled p, d.active p)

/-- The value has a one for the interrupt in word `n`. -/
def namedBy (n value : U32) (p : Fin 1024) : Bool := n.toNat = p.val / 32 && value.getLsbD (p % 32)

/-- `GICD_WRITE` as the distributor takes it: a one sets or clears the bit of its interrupt, a zero
leaves it. -/
def PhysGicd.write (w : U32 × U32) (d : PhysGicd) : PhysGicd :=
  match gicdDecode w.1 with
  | some .isenabler =>
      { d with enabled := fun p => d.enabled p || namedBy (GicdReg.isenabler.word w.1) w.2 p }
  | some .icenabler =>
      { d with enabled := fun p => d.enabled p && !namedBy (GicdReg.icenabler.word w.1) w.2 p }
  | some .isactiver =>
      { d with active := fun p => d.active p || namedBy (GicdReg.isactiver.word w.1) w.2 p }
  | some .icactiver =>
      { d with active := fun p => d.active p && !namedBy (GicdReg.icactiver.word w.1) w.2 p }
  | _ => d

/-- The physical distributor behind the writes of a state, where it was `d` before them. -/
def VgicdState.physGicd (d : PhysGicd) (σ : VgicdState) : PhysGicd :=
  σ.phys.foldl (fun d w => d.write w) d

theorem physGicd_of_append {σ σ' : VgicdState} {ws : List (U32 × U32)} (d : PhysGicd)
    (h : σ'.phys = σ.phys ++ ws) :
    σ'.physGicd d = ws.foldl (fun d w => d.write w) (σ.physGicd d) := by
  rw [VgicdState.physGicd, h, List.foldl_append, VgicdState.physGicd]

/-- The registers with a bit for every interrupt that reach the physical distributor. -/
def GicdReg.Handed (r : GicdReg) : Prop := r = .isenabler ∨ r = .isactiver ∨ r = .icactiver

theorem gicdDecode_at {r : GicdReg} (hr : r.Handed) (n : Fin 32) :
    gicdDecode (r.at (BitVec.ofNat 32 n)) = some r := by
  have hall : ∀ n : Fin 32,
      gicdDecode (GicdReg.isenabler.at (BitVec.ofNat 32 n)) = some .isenabler ∧
      gicdDecode (GicdReg.isactiver.at (BitVec.ofNat 32 n)) = some .isactiver ∧
      gicdDecode (GicdReg.icactiver.at (BitVec.ofNat 32 n)) = some .icactiver := by
    decide +kernel
  obtain ⟨henable, hset, hclear⟩ := hall n
  rcases hr with rfl | rfl | rfl
  · exact henable
  · exact hset
  · exact hclear

theorem word_at (r : GicdReg) (n : Fin 32) :
    r.word (r.at (BitVec.ofNat 32 n)) = BitVec.ofNat 32 n := by
  have hshift : ∀ n : Fin 32, (BitVec.ofNat 32 n.val * 4) >>> 2 = BitVec.ofNat 32 n.val := by
    decide
  have hsub : r.first + BitVec.ofNat 32 n * 4 - r.first = BitVec.ofNat 32 n * 4 := by
    rw [BitVec.add_comm, BitVec.add_sub_cancel]
  rw [GicdReg.word, GicdReg.at, hsub, hshift]

theorem exists_word {r : GicdReg} (hr : r.Handed) {offset : U32}
    (h : gicdDecode offset = some r) : ∃ n : Fin 32, r.word offset = BitVec.ofNat 32 n := by
  have hle : (r.word offset).toNat < 32 := by
    refine (toNat_word_le h).trans_lt ?_
    rcases hr with rfl | rfl | rfl <;> decide
  exact ⟨⟨_, hle⟩, by rw [BitVec.ofNat_toNat, BitVec.setWidth_eq]⟩

theorem namedBy_ofNat (n : Fin 32) (value : U32) (p : Fin 1024) :
    namedBy (BitVec.ofNat 32 n) value p = (decide (n = wordOf p) && value.getLsbD (p % 32)) := by
  rw [namedBy, toNat_ofNat_fin]
  simp only [Fin.ext_iff, wordOf]

theorem write_gicEnableIrq (p : Fin 1024) (d : PhysGicd) :
    d.write (gicEnableIrq (BitVec.ofNat 32 p)) =
      { d with enabled := fun q => d.enabled q || decide (q = p) } := by
  have hshift : (BitVec.ofNat 32 p.val) >>> 5 = BitVec.ofNat 32 (wordOf p).val := by
    apply BitVec.eq_of_toNat_eq
    have hp := p.isLt
    rw [BitVec.toNat_ushiftRight, BitVec.toNat_ofNat, Nat.mod_eq_of_lt (by omega),
      toNat_ofNat_fin, Nat.shiftRight_eq_div_pow, wordOf]
  have hand : (BitVec.ofNat 32 p.val &&& 0x1F).toNat = p.val % 32 := by
    have hp := p.isLt
    rw [BitVec.toNat_and, BitVec.toNat_ofNat, Nat.mod_eq_of_lt (by omega)]
    exact Nat.and_two_pow_sub_one_eq_mod p.val 5
  have hnamed : ∀ q : Fin 1024, (decide (wordOf p = wordOf q) &&
      (((1 <<< (p.val % 32) : ℕ) : U32)).getLsbD (q % 32)) = decide (q = p) := by
    intro q
    have hbit : (((1 <<< (p.val % 32) : ℕ) : U32)).getLsbD (q % 32) =
        decide (p.val % 32 = q.val % 32) := by
      rw [BitVec.natCast_eq_ofNat, BitVec.getLsbD_ofNat, Nat.one_shiftLeft, Nat.testBit_two_pow,
        decide_eq_true (Nat.mod_lt q.val (by decide)), Bool.true_and]
    rw [hbit, ← Bool.decide_and, decide_eq_decide, Fin.ext_iff, Fin.ext_iff, wordOf, wordOf]
    dsimp only
    omega
  rw [gicEnableIrq, hshift, hand, PhysGicd.write]
  simp only [gicdDecode_at (.inl rfl), word_at, namedBy_ofNat, hnamed]

theorem foldl_gicEnableIrq {ps : List U32} (hps : ∀ x ∈ ps, ∃ p, mapIndex x = some p)
    (d : PhysGicd) :
    (ps.map gicEnableIrq).foldl (fun d w => d.write w) d =
      { d with enabled := fun q => d.enabled q || decide (BitVec.ofNat 32 q ∈ ps) } := by
  induction ps generalizing d with
  | nil => simp
  | cons x ps ih =>
      obtain ⟨p, hp⟩ := hps x List.mem_cons_self
      rw [List.map_cons, List.foldl_cons, ih fun y hy => hps y (List.mem_cons_of_mem _ hy),
        mapIndex_eq_some hp, write_gicEnableIrq]
      congr 1
      funext q
      simp only [List.mem_cons, ofNat_fin_inj, Bool.decide_or, Bool.or_assoc]

/-! ## What the handler writes -/

/-- A result of the handler that has written nothing to the physical distributor. -/
def KeepsPhys (σ : VgicdState) (x : Except VgicdFault VgicdState) : Prop :=
  ∀ σ', x = .ok σ' → σ'.phys = σ.phys

section

variable {α : Type} {σ σ' : VgicdState}

theorem keepsPhys_ok (h : σ'.phys = σ.phys) : KeepsPhys σ (.ok σ') := by
  intro τ hτ
  rw [← Except.ok.inj hτ, h]

theorem keepsPhys_bind {x : Except VgicdFault α} {f : α → Except VgicdFault VgicdState}
    (h : ∀ a, KeepsPhys σ (f a)) : KeepsPhys σ (x >>= f) := by
  cases x with
  | error fault =>
      intro τ hτ
      cases hτ
  | ok a => exact h a

theorem keepsPhys_index_assign {β : Type} {x : Except VgicdFault α}
    {y : α → Except VgicdFault β} {f : α → β → Except VgicdFault VgicdState}
    (h : ∀ a b, KeepsPhys σ (f a b)) : KeepsPhys σ (x >>= fun a => y a >>= f a) :=
  keepsPhys_bind fun a => keepsPhys_bind (h a)

theorem keepsPhys_setClear (gicd : Vgicd) (k : ℕ) (currentStatus n oldStatus : U32) :
    KeepsPhys σ ((σ.setGicd gicd).setClear k currentStatus n oldStatus) := by
  intro τ hτ
  rw [VgicdState.setClear] at hτ
  cases hclear : KHypervisor.setClear currentStatus (n.setWidth 8) oldStatus
    ((σ.setGicd gicd).vcpu k) with
  | none =>
      rw [hclear] at hτ
      cases hτ
  | some v =>
      rw [hclear] at hτ
      rw [← Except.ok.inj hτ, VgicdState.setGicd]

theorem foldl_phys {β : Type} {f : VgicdState → β → VgicdState}
    (hf : ∀ σ b, (f σ b).phys = σ.phys) (bs : List β) (σ : VgicdState) :
    (bs.foldl f σ).phys = σ.phys := by
  induction bs generalizing σ with
  | nil => rfl
  | cons b bs ih => rw [List.foldl_cons, ih, hf]

/-- A software generated interrupt is injected into the virtual processors alone. -/
theorem handlerSgir_phys (env : VgicdEnv) (k : ℕ) (value : U32) (σ : VgicdState) :
    (handlerSgir env k value σ).phys = σ.phys := by
  rw [handlerSgir]
  split
  · rw [scan_eq]
    refine foldl_phys (fun τ target => ?_) _ _
    split <;> rfl
  · refine foldl_phys (fun τ cpuid => ?_) _ _
    split <;> rfl
  · rfl
  · rfl

/-- The handler writes to the physical distributor for three registers only. -/
theorem keepsPhys_write (env : VgicdEnv) (k : ℕ) {offset : U32} (value : U32) (σ : VgicdState)
    (h : ∀ r, gicdDecode offset = some r → ¬ r.Handed) :
    KeepsPhys σ (vgicdWriteHandler env k offset value σ) := by
  rw [vgicdWriteHandler]
  cases hdecode : gicdDecode offset with
  | none => exact keepsPhys_ok rfl
  | some r =>
      cases r
      case isenabler => exact absurd (.inl rfl) (h _ hdecode)
      case isactiver => exact absurd (.inr (.inl rfl)) (h _ hdecode)
      case icactiver => exact absurd (.inr (.inr rfl)) (h _ hdecode)
      case sgir => exact keepsPhys_ok (handlerSgir_phys env k value σ)
      case icenabler =>
        dsimp only
        split <;> exact keepsPhys_index_assign fun _ _ => keepsPhys_setClear _ _ _ _ _
      case ispendr =>
        dsimp only
        split <;> exact keepsPhys_index_assign fun _ _ => keepsPhys_ok rfl
      case itargetsr =>
        dsimp only
        split <;> exact keepsPhys_index_assign fun _ _ => keepsPhys_ok rfl
      case igroupr =>
        dsimp only
        split
        · exact keepsPhys_bind fun _ => keepsPhys_ok rfl
        · split
          · exact keepsPhys_bind fun _ => keepsPhys_ok rfl
          · exact keepsPhys_ok rfl
      case icpendr =>
        dsimp only
        split <;> exact keepsPhys_bind fun _ => keepsPhys_ok rfl
      case ipriorityr =>
        dsimp only
        split <;> exact keepsPhys_bind fun _ => keepsPhys_ok rfl
      case icfgr =>
        dsimp only
        split <;> exact keepsPhys_bind fun _ => keepsPhys_ok rfl
      case cpendsgir => exact keepsPhys_bind fun _ => keepsPhys_ok rfl
      case spendsgir => exact keepsPhys_bind fun _ => keepsPhys_ok rfl
      all_goals exact keepsPhys_ok rfl

theorem write_isactiver (env : VgicdEnv) (k : ℕ) {offset : U32} (value : U32) (σ : VgicdState)
    (h : gicdDecode offset = some .isactiver) :
    vgicdWriteHandler env k offset value σ =
      .ok (σ.gicdWrite (GicdReg.isactiver.at (GicdReg.isactiver.word offset)) value) := by
  rw [vgicdWriteHandler, h]

theorem write_icactiver (env : VgicdEnv) (k : ℕ) {offset : U32} (value : U32) (σ : VgicdState)
    (h : gicdDecode offset = some .icactiver) :
    vgicdWriteHandler env k offset value σ =
      .ok (σ.gicdWrite (GicdReg.icactiver.at (GicdReg.icactiver.word offset)) value) := by
  rw [vgicdWriteHandler, h]

/-! ### The enabling register -/

/-- The word `n` of `GICD_ISENABLER`, which is banked for the first one. -/
def Vgicd.isenablerAt (g : Vgicd) (k : ℕ) (n : U32) : Option U32 :=
  if n = 0 then Cells.get g.isenabler0 k else Cells.get g.isenabler n.toNat

/-- The physical interrupts that `set_enable` enables for the bits of a value that are new in the
word, from the top down. -/
def VgicdState.enables (σ : VgicdState) (k : ℕ) (n : Fin 32) (old value : U32) : List U32 :=
  (deltaBits old (old ||| value)).map fun b => (σ.vcpu k).pirqOf (virqAt n b)

theorem mem_enables {k : ℕ} {n : Fin 32} {old value x : U32} :
    x ∈ σ.enables k n old value ↔ ∃ b < 32, value.getLsbD b = true ∧ old.getLsbD b = false ∧
      (σ.vcpu k).pirqOf (virqAt n b) = x := by
  have hbit : ∀ old value : Bool, (old ^^ (old || value)) = true ↔ value = true ∧ old = false := by
    decide
  simp only [VgicdState.enables, List.mem_map, deltaBits, mem_bitsBelow, BitVec.getLsbD_xor,
    BitVec.getLsbD_or, hbit, and_assoc]

/-- The loop ends exactly if the map has an entry for every physical interrupt that it enables. -/
theorem foldl_setEnableBit_eq {n : Fin 32} {bs : List ℕ} (hbs : ∀ b ∈ bs, b < 32) (v : Vcpu)
    (phys : List (U32 × U32)) :
    ∃ v', bs.foldl (fun st b => setEnableBit ((BitVec.ofNat 32 n).setWidth 8) b st)
        (some (v, phys)) =
      if ∀ b ∈ bs, (mapIndex (v.pirqOf (virqAt n b))).isSome then
        some (v', phys ++ bs.map fun b => gicEnableIrq (v.pirqOf (virqAt n b)))
      else none := by
  induction bs generalizing v phys with
  | nil => exact ⟨v, by simp⟩
  | cons b bs ih =>
      rw [List.foldl_cons, setEnableBit_eq v n (hbs b List.mem_cons_self)]
      cases hp : mapIndex (v.pirqOf (virqAt n b)) with
      | none =>
          have hnone : bs.foldl (fun st b => setEnableBit ((BitVec.ofNat 32 n).setWidth 8) b st)
              none = none := List.foldl_fixed' (fun _ => rfl) bs
          refine ⟨v, ?_⟩
          rw [Option.map_none, hnone, if_neg]
          intro hall
          simpa [hp] using hall b List.mem_cons_self
      | some p =>
          have hne : ∀ x ∈ [virqAt n b], v.pirqOf x ≠ pirqInvalid := by
            intro x hx
            rw [List.mem_singleton.mp hx, mapIndex_eq_some hp]
            exact (pirqInvalid_ne_ofNat p).symm
          have hpirq := (switched_enable hp rfl).pirqOf_of_ne hne
          obtain ⟨v', hv'⟩ := ih (fun c hc => hbs c (List.mem_cons_of_mem _ hc)) _
            (phys ++ [gicEnableIrq (v.pirqOf (virqAt n b))])
          refine ⟨v', (hv'.trans ?_)⟩
          simp only [hpirq, List.forall_mem_cons, hp, Option.isSome_some, true_and, List.map_cons,
            List.append_assoc, List.singleton_append]

theorem setEnable_eq (σ : VgicdState) (k : ℕ) (n : Fin 32) (old value : U32) :
    ∃ σ', σ'.phys = σ.phys ++ (σ.enables k n old value).map gicEnableIrq ∧
      σ.setEnable k (old ||| value) (BitVec.ofNat 32 n) old =
        if ∀ x ∈ σ.enables k n old value, (mapIndex x).isSome then .ok σ' else .error .map := by
  obtain ⟨v', hv'⟩ := foldl_setEnableBit_eq (n := n)
    (fun b (hb : b ∈ deltaBits old (old ||| value)) => lt_of_mem_deltaBits hb) (σ.vcpu k) σ.phys
  refine ⟨{ σ with vcpu := Function.update σ.vcpu k v'
                   phys := σ.phys ++ (σ.enables k n old value).map gicEnableIrq }, rfl, ?_⟩
  have hloop : KHypervisor.setEnable (old ||| value) ((BitVec.ofNat 32 n.val).setWidth 8) old
      (σ.vcpu k) σ.phys =
        if ∀ x ∈ σ.enables k n old value, (mapIndex x).isSome then
          some (v', σ.phys ++ (σ.enables k n old value).map gicEnableIrq)
        else none := by
    rw [KHypervisor.setEnable, scan_eq]
    refine hv'.trans ?_
    simp only [VgicdState.enables, List.forall_mem_map, List.map_map, Function.comp_def]
  rw [VgicdState.setEnable, hloop]
  split <;> rfl

/-- A cell that is read and assigned to: both or neither go through. -/
theorem index_assign {m : ℕ} (a : Fin m → α) (i : ℕ) :
    (Cells.get a i = none ∧ index a i = .error .gicd) ∨
      ∃ y, Cells.get a i = some y ∧ index a i = .ok y ∧ ∀ x, ∃ a', assign a i x = .ok a' := by
  by_cases hi : i < m
  · refine .inr ⟨a ⟨i, hi⟩, Cells.get_of_lt a hi, ?_, fun x => ⟨Function.update a ⟨i, hi⟩ x, ?_⟩⟩
    · rw [index, Cells.get_of_lt a hi, orFault]
    · rw [assign, Cells.set_of_lt a hi, orFault]
  · refine .inl ⟨Cells.get_of_le a (Nat.le_of_not_lt hi), ?_⟩
    rw [index, Cells.get_of_le a (Nat.le_of_not_lt hi), orFault]

/-- A write accumulates in the word, if there is one, and acts on the bits that are new in it. -/
theorem write_isenabler (env : VgicdEnv) (k : ℕ) {offset : U32} (value : U32) (σ : VgicdState)
    (h : gicdDecode offset = some .isenabler) :
    (σ.gicd.isenablerAt k (GicdReg.isenabler.word offset) = none ∧
        vgicdWriteHandler env k offset value σ = .error .gicd) ∨
      ∃ old gicd, σ.gicd.isenablerAt k (GicdReg.isenabler.word offset) = some old ∧
        vgicdWriteHandler env k offset value σ = (σ.setGicd gicd).setEnable k (old ||| value)
          (GicdReg.isenabler.word offset) old := by
  rw [vgicdWriteHandler, h]
  dsimp only
  rw [Vgicd.isenablerAt]
  by_cases hn : GicdReg.isenabler.word offset = 0
  · rw [if_pos hn, if_pos hn]
    rcases index_assign σ.gicd.isenabler0 k with ⟨hget, hindex⟩ | ⟨old, hget, hindex, hassign⟩
    · exact .inl ⟨hget, by rw [hindex]; rfl⟩
    · obtain ⟨a, ha⟩ := hassign (old ||| value)
      refine .inr ⟨old, { σ.gicd with isenabler0 := a }, hget, ?_⟩
      simp only [hindex, bind, Except.bind, ha]
  · rw [if_neg hn, if_neg hn]
    rcases index_assign σ.gicd.isenabler (GicdReg.isenabler.word offset).toNat with
      ⟨hget, hindex⟩ | ⟨old, hget, hindex, hassign⟩
    · exact .inl ⟨hget, by rw [hindex]; rfl⟩
    · obtain ⟨a, ha⟩ := hassign (old ||| value)
      refine .inr ⟨old, { σ.gicd with isenabler := a }, hget, ?_⟩
      simp only [hindex, bind, Except.bind, ha]

end

/-! ## The owners -/

/-- `vcpu_init` maps the physical interrupt for the machine. -/
def MappedTo (vserial : Bool) (vmid : VmId) (p : Fin 1024) : Prop :=
  ∃ x, (initMap vserial vmid x).pirq = BitVec.ofNat 32 p

theorem mappedTo_iff {vserial : Bool} {vmid : VmId} {p : Fin 1024} :
    MappedTo vserial vmid p ↔ ∃ x, serialMap vserial vmid = some (p, x) := by
  rw [MappedTo]
  refine exists_congr fun x => ?_
  rw [initMap_pirq]
  cases hserial : serialMap vserial vmid with
  | none => exact iff_of_false (pirqInvalid_ne_ofNat p) (by simp)
  | some pair =>
      rw [Option.some.injEq, Prod.ext_iff]
      dsimp only
      by_cases hx : x = pair.2
      · rw [if_pos hx, ofNat_fin_inj]
        exact ⟨fun hp => ⟨hp, hx.symm⟩, fun hp => hp.1⟩
      · rw [if_neg hx]
        exact iff_of_false (pirqInvalid_ne_ofNat p) fun hp => hx hp.2.symm

/-- The machines, each with the physical interrupts that `vcpu_init` maps for it, where `vserial` is
`CONFIG_VSERIAL`, and the interrupts that the hypervisor serves itself. -/
structure Owners where
  vserial : Bool
  vms : Set VmId
  hypervisor : Set (Fin 1024)

/-- The interrupt is the machine's own, or that of no other machine. -/
def Owners.Allowed (o : Owners) (vmid : VmId) (p : Fin 1024) : Prop :=
  MappedTo o.vserial vmid p ∨ ∀ u ∈ o.vms, u ≠ vmid → ¬ MappedTo o.vserial u p

/-- The interrupt belongs to another machine or to the hypervisor. -/
def Owners.Protected (o : Owners) (vmid : VmId) (p : Fin 1024) : Prop :=
  (∃ u ∈ o.vms, u ≠ vmid ∧ MappedTo o.vserial u p) ∨ p ∈ o.hypervisor

/-- A write of the machine at the offset changes the physical distributor only for interrupts that
it may change, and what becomes of those of the others does not depend on the value. -/
structure Owners.Isolated (o : Owners) (vmid : VmId) (env : VgicdEnv) (k : ℕ) (offset : U32)
    (σ : VgicdState) (d : PhysGicd) : Prop where
  reaches : ∀ value σ', vgicdWriteHandler env k offset value σ = .ok σ' →
    ∀ p, (σ'.physGicd d).bits p ≠ (σ.physGicd d).bits p → o.Allowed vmid p
  independent : ∀ value₁ value₂ σ₁ σ₂, vgicdWriteHandler env k offset value₁ σ = .ok σ₁ →
    vgicdWriteHandler env k offset value₂ σ = .ok σ₂ →
    ∀ p, o.Protected vmid p → (σ₁.physGicd d).bits p = (σ₂.physGicd d).bits p

/-- The interrupts of the others are in the state already that the writes at the offset can put them
in: those of the word, or those that its bits stand for. -/
def Owners.Settled (o : Owners) (vmid : VmId) (k : ℕ) (offset : U32) (σ : VgicdState)
    (d : PhysGicd) : Prop :=
  match gicdDecode offset with
  | some .isenabler =>
      ∀ old, σ.gicd.isenablerAt k (GicdReg.isenabler.word offset) = some old →
        ∀ b < 32, old.getLsbD b = false → ∀ p, o.Protected vmid p →
          (σ.vcpu k).pirqOf (Fin.ofNat 1024 (32 * (GicdReg.isenabler.word offset).toNat + b)) =
            BitVec.ofNat 32 p → d.enabled p = true
  | some .isactiver =>
      ∀ p, o.Protected vmid p → (GicdReg.isactiver.word offset).toNat = p / 32 → d.active p = true
  | some .icactiver =>
      ∀ p, o.Protected vmid p → (GicdReg.icactiver.word offset).toNat = p / 32 → d.active p = false
  | _ => True

section

variable {σ σ' : VgicdState} {offset : U32}

theorem bits_isactiver (h : gicdDecode offset = some .isactiver) (value : U32) (σ : VgicdState)
    (d : PhysGicd) (p : Fin 1024) :
    ((σ.gicdWrite (GicdReg.isactiver.at (GicdReg.isactiver.word offset)) value).physGicd d).bits p =
      ((σ.physGicd d).enabled p,
        (σ.physGicd d).active p || namedBy (GicdReg.isactiver.word offset) value p) := by
  obtain ⟨n, hn⟩ := exists_word (.inr (.inl rfl)) h
  rw [physGicd_of_append d rfl, List.foldl_cons, List.foldl_nil, PhysGicd.write, hn]
  simp only [gicdDecode_at (.inr (.inl rfl)), word_at, PhysGicd.bits]

theorem bits_icactiver (h : gicdDecode offset = some .icactiver) (value : U32) (σ : VgicdState)
    (d : PhysGicd) (p : Fin 1024) :
    ((σ.gicdWrite (GicdReg.icactiver.at (GicdReg.icactiver.word offset)) value).physGicd d).bits p =
      ((σ.physGicd d).enabled p,
        (σ.physGicd d).active p && !namedBy (GicdReg.icactiver.word offset) value p) := by
  obtain ⟨n, hn⟩ := exists_word (.inr (.inr rfl)) h
  rw [physGicd_of_append d rfl, List.foldl_cons, List.foldl_nil, PhysGicd.write, hn]
  simp only [gicdDecode_at (.inr (.inr rfl)), word_at, PhysGicd.bits]

theorem bits_isenabler {k : ℕ} {n : Fin 32} {old value : U32}
    (hphys : σ'.phys = σ.phys ++ (σ.enables k n old value).map gicEnableIrq)
    (hall : ∀ x ∈ σ.enables k n old value, (mapIndex x).isSome) (d : PhysGicd) (p : Fin 1024) :
    (σ'.physGicd d).bits p =
      ((σ.physGicd d).enabled p || decide (BitVec.ofNat 32 p ∈ σ.enables k n old value),
        (σ.physGicd d).active p) := by
  rw [physGicd_of_append d hphys,
    foldl_gicEnableIrq fun x hx => Option.isSome_iff_exists.mp (hall x hx), PhysGicd.bits]

variable {o : Owners} {vmid : VmId} {env : VgicdEnv} {k : ℕ} {d : PhysGicd} {p : Fin 1024}

theorem namedBy_allOnes {n : U32} (hn : n.toNat = p / 32) : namedBy n (BitVec.allOnes 32) p := by
  rw [namedBy, decide_eq_true hn, Bool.true_and, BitVec.getLsbD_allOnes]
  exact decide_eq_true (Nat.mod_lt _ (by decide))

theorem namedBy_zero (n : U32) (p : Fin 1024) : namedBy n 0 p = false := by
  simp [namedBy]

theorem Owners.Settled.unchanged (h : o.Settled vmid k offset σ (σ.physGicd d)) {value : U32}
    (hok : vgicdWriteHandler env k offset value σ = .ok σ') (hp : o.Protected vmid p) :
    (σ'.physGicd d).bits p = (σ.physGicd d).bits p := by
  have hor : ∀ {a b : Bool}, (b = true → a = true) → (a || b) = a := by decide
  have hand : ∀ {a b : Bool}, (b = true → a = false) → (a && !b) = a := by decide
  have hword : ∀ {n : U32}, namedBy n value p = true → n.toNat = p / 32 := fun hn =>
    of_decide_eq_true (Bool.and_eq_true_iff.mp hn).1
  by_cases hhanded : ∀ r, gicdDecode offset = some r → ¬ r.Handed
  · rw [VgicdState.physGicd, keepsPhys_write env k value σ hhanded σ' hok, VgicdState.physGicd]
  · push Not at hhanded
    obtain ⟨r, hdecode, rfl | rfl | rfl⟩ := hhanded
    · obtain ⟨n, hn⟩ := exists_word (.inl rfl) hdecode
      rw [Owners.Settled, hdecode] at h
      rcases write_isenabler env k value σ hdecode with ⟨-, herror⟩ | ⟨old, gicd, hold, hwrite⟩
      · rw [herror] at hok
        cases hok
      · obtain ⟨τ, hphys, hτ⟩ := setEnable_eq (σ.setGicd gicd) k n old value
        rw [hwrite, hn, hτ] at hok
        split at hok
        · next hall =>
            have hkept : BitVec.ofNat 32 p ∈ (σ.setGicd gicd).enables k n old value →
                (σ.physGicd d).enabled p = true := by
              intro hmem
              obtain ⟨b, hb, -, hfresh, hpirq⟩ := mem_enables.mp hmem
              refine h old hold b hb hfresh p hp ?_
              rw [hn, toNat_ofNat_fin]
              exact hpirq
            rw [← Except.ok.inj hok, bits_isenabler hphys hall]
            exact Prod.ext (hor fun hmem => hkept (of_decide_eq_true hmem)) rfl
        · cases hok
    · rw [write_isactiver env k value σ hdecode] at hok
      rw [Owners.Settled, hdecode] at h
      rw [← Except.ok.inj hok, bits_isactiver hdecode, hor fun hn => h p hp (hword hn),
        PhysGicd.bits]
    · rw [write_icactiver env k value σ hdecode] at hok
      rw [Owners.Settled, hdecode] at h
      rw [← Except.ok.inj hok, bits_icactiver hdecode, hand fun hn => h p hp (hword hn),
        PhysGicd.bits]

/-- A value whose new bits stand for `p` at most enables at most `p`. -/
theorem write_isenabler_bits (hdecode : gicdDecode offset = some .isenabler) {n : Fin 32}
    (hn : GicdReg.isenabler.word offset = BitVec.ofNat 32 n) {old : U32}
    (hold : σ.gicd.isenablerAt k (GicdReg.isenabler.word offset) = some old) {value : U32}
    (hvalue : ∀ x ∈ σ.enables k n old value, x = BitVec.ofNat 32 p) :
    ∃ σ', vgicdWriteHandler env k offset value σ = .ok σ' ∧ (σ'.physGicd d).bits p =
      ((σ.physGicd d).enabled p || decide (BitVec.ofNat 32 p ∈ σ.enables k n old value),
        (σ.physGicd d).active p) := by
  have hall : ∀ x ∈ σ.enables k n old value, (mapIndex x).isSome := fun x hx => by
    rw [hvalue x hx, mapIndex_ofNat, Option.isSome_some]
  rcases write_isenabler env k value σ hdecode with ⟨hnone, -⟩ | ⟨old', gicd, hold', hwrite⟩
  · rw [hold] at hnone
    cases hnone
  · rw [hold, Option.some.injEq] at hold'
    subst hold'
    obtain ⟨τ, hphys, hτ⟩ := setEnable_eq (σ.setGicd gicd) k n old value
    refine ⟨τ, ?_, bits_isenabler hphys hall d p⟩
    rw [hwrite, hn, hτ]
    exact if_pos hall

/-- The value with bit `b` alone enables what that stands for, and the value zero enables
nothing. -/
theorem Owners.Isolated.settled_isenabler (h : o.Isolated vmid env k offset σ d)
    (hdecode : gicdDecode offset = some .isenabler) {old : U32}
    (hold : σ.gicd.isenablerAt k (GicdReg.isenabler.word offset) = some old) {b : ℕ} (hb : b < 32)
    (hfresh : old.getLsbD b = false) (hp : o.Protected vmid p)
    (hpirq : (σ.vcpu k).pirqOf (Fin.ofNat 1024 (32 * (GicdReg.isenabler.word offset).toNat + b)) =
      BitVec.ofNat 32 p) : (σ.physGicd d).enabled p = true := by
  obtain ⟨n, hn⟩ := exists_word (.inl rfl) hdecode
  rw [hn, toNat_ofNat_fin] at hpirq
  have hsingle : ∀ x, x ∈ σ.enables k n old (BitVec.twoPow 32 b) ↔ x = BitVec.ofNat 32 p := by
    intro x
    rw [mem_enables]
    constructor
    · rintro ⟨c, hc, hbit, -, hx⟩
      rw [BitVec.getLsbD_twoPow, Bool.and_eq_true, decide_eq_true_eq, decide_eq_true_eq] at hbit
      rw [← hx, ← hbit.2]
      exact hpirq
    · rintro rfl
      exact ⟨b, hb, by simp [hb], hfresh, hpirq⟩
  have hnone : ∀ x, x ∉ σ.enables k n old 0 := by
    intro x hx
    obtain ⟨c, -, hbit, -⟩ := mem_enables.mp hx
    simp at hbit
  obtain ⟨σ₁, hok₁, hbits₁⟩ := write_isenabler_bits hdecode hn hold fun x hx => (hsingle x).mp hx
  obtain ⟨σ₂, hok₂, hbits₂⟩ := write_isenabler_bits hdecode hn hold fun x hx => absurd hx (hnone x)
  have hsame := h.independent _ _ _ _ hok₁ hok₂ p hp
  rw [hbits₁, hbits₂, decide_eq_true ((hsingle _).mpr rfl), decide_eq_false (hnone _),
    Bool.or_true, Bool.or_false, Prod.mk.injEq] at hsame
  exact hsame.1.symm

/-- Two values tell on an interrupt that is not in that state: zero, and one with ones. -/
theorem Owners.Isolated.settled (h : o.Isolated vmid env k offset σ d) :
    o.Settled vmid k offset σ (σ.physGicd d) := by
  rw [Owners.Settled]
  split
  · next hdecode =>
      intro old hold b hb hfresh p hp hpirq
      exact h.settled_isenabler hdecode hold hb hfresh hp hpirq
  · next hdecode =>
      intro p hp hword
      have hsame := h.independent _ _ _ _ (write_isactiver env k (BitVec.allOnes 32) σ hdecode)
        (write_isactiver env k 0 σ hdecode) p hp
      rw [bits_isactiver hdecode, bits_isactiver hdecode, namedBy_allOnes hword, namedBy_zero,
        Bool.or_true, Bool.or_false, Prod.mk.injEq] at hsame
      exact hsame.2.symm
  · next hdecode =>
      intro p hp hword
      have hsame := h.independent _ _ _ _ (write_icactiver env k (BitVec.allOnes 32) σ hdecode)
        (write_icactiver env k 0 σ hdecode) p hp
      rw [bits_icactiver hdecode, bits_icactiver hdecode, namedBy_allOnes hword, namedBy_zero,
        Bool.not_true, Bool.and_false, Bool.not_false, Bool.and_true, Prod.mk.injEq] at hsame
      exact hsame.2.symm
  · trivial

end

/-- The writes of a machine at an offset stay away from the physical interrupts of the other
machines and of the hypervisor if and only if these are in the state already that the writes at
the offset can put them in. -/
theorem isolated_iff (o : Owners) (vmid : VmId) (env : VgicdEnv) (k : ℕ) (offset : U32)
    (σ : VgicdState) (d : PhysGicd) :
    o.Isolated vmid env k offset σ d ↔ o.Settled vmid k offset σ (σ.physGicd d) := by
  refine ⟨fun h => h.settled, fun h => ⟨fun value σ' hok p hchanged => ?_,
    fun value₁ value₂ σ₁ σ₂ hok₁ hok₂ p hp => ?_⟩⟩
  · by_contra hallowed
    rw [Owners.Allowed, not_or] at hallowed
    obtain ⟨-, hother⟩ := hallowed
    push Not at hother
    exact hchanged (h.unchanged hok (.inl hother))
  · rw [h.unchanged hok₁ hp, h.unchanged hok₂ hp]

/-- Virtual machine 0 makes interrupt 26 active, which is the timer of the hypervisor, and it
enables interrupt 39, which is the serial line of machine 1. -/
theorem timer_activated :
    (∃ σ₁ σ₂, vgicdWriteHandler ⟨31, 1, 0, fun _ => 0⟩ 0 0x300 (1 <<< 26)
        (.create true 0 (fun _ => default) 0 0) = .ok σ₁ ∧
      vgicdWriteHandler ⟨31, 1, 0, fun _ => 0⟩ 0 0x300 0
        (.create true 0 (fun _ => default) 0 0) = .ok σ₂ ∧
      (σ₁.physGicd ⟨fun _ => false, fun _ => false⟩).active 26 = true ∧
      (σ₂.physGicd ⟨fun _ => false, fun _ => false⟩).active 26 = false) ∧
    (∃ σ', vgicdWriteHandler ⟨31, 1, 0, fun _ => 0⟩ 0 0x104 (1 <<< 7)
        (.create true 0 (fun _ => default) 0 0) = .ok σ' ∧
      (σ'.physGicd ⟨fun _ => false, fun _ => false⟩).enabled 39 = true) ∧
    ¬ Owners.Isolated ⟨true, {0, 1}, {25, 26}⟩ 0 ⟨31, 1, 0, fun _ => 0⟩ 0 0x300
        (.create true 0 (fun _ => default) 0 0) ⟨fun _ => false, fun _ => false⟩ ∧
    ¬ Owners.Isolated ⟨true, {0, 1}, {25, 26}⟩ 0 ⟨31, 1, 0, fun _ => 0⟩ 0 0x104
        (.create true 0 (fun _ => default) 0 0) ⟨fun _ => false, fun _ => false⟩ := by
  refine ⟨⟨_, _, rfl, rfl, ?_, ?_⟩, ⟨_, rfl, ?_⟩, fun h => ?_, fun h => ?_⟩
  · decide +kernel
  · decide +kernel
  · decide +kernel
  · have hsame := h.independent (1 <<< 26) 0 _ _ rfl rfl 26 (.inr (.inr rfl))
    exact absurd hsame (by decide +kernel)
  · rcases h.reaches (1 <<< 7) _ rfl 39 (by decide +kernel) with hown | hother
    · obtain ⟨x, hx⟩ := mappedTo_iff.mp hown
      exact absurd hx (by simp [serialMap])
    · exact hother 1 (.inr rfl) (by decide) (mappedTo_iff.mpr ⟨37, rfl⟩)

end KHypervisor
