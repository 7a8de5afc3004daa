import KHypervisor.Lib.Run
import KHypervisor.Vdev.Vgicd

/-!
# The enable law of the virtual distributor

A distributor has one enable bit for every interrupt: a write to `GICD_ISENABLER(n)` sets the bits
that are one in the value, a write to `GICD_ICENABLER(n)` clears them, and both registers read back
the bits. This module says when the writes of the guests to the virtual distributor obey that law.
-/

namespace KHypervisor

open BitScan Run

/-- The write of a virtual processor to `GICD_ISENABLER(n)` or, where `set` is false, to
`GICD_ICENABLER(n)`. -/
structure EnableWrite where
  vcpuid : Fin 8
  set : Bool
  n : Fin 32
  value : U32

/-- `GICD_ISENABLER` or `GICD_ICENABLER`. -/
def enableReg (set : Bool) : GicdReg := if set then .isenabler else .icenabler

/-- The offset of `GICD_ISENABLER(n)` or of `GICD_ICENABLER(n)`. -/
def enableOffset (set : Bool) (n : Fin 32) : U32 := (enableReg set).at (BitVec.ofNat 32 n)

def vgicdStep (env : VgicdEnv) (σ : VgicdState) (e : EnableWrite) : Option VgicdState :=
  (vgicdWriteHandler env e.vcpuid (enableOffset e.set e.n) e.value σ).toOption

def VgicdState.create (vserial : Bool) (vmid : VmId) (vcpu : ℕ → Vcpu) (typer iidr : U32) :
    VgicdState where
  gicd := vgicdCreateInstance typer iidr
  vcpu k := { vcpu k with map := initMap vserial vmid }
  phys := []
  sgis := []

/-! ## The reference model -/

/-- The enable bits of the interrupts of word `n`, as the routing uses them. -/
def Vcpu.enableWord (v : Vcpu) (n : Fin 32) : U32 := ofBits 32 fun b => v.irqEnabled (virqAt n b)

def refWrite (set : Bool) (value word : U32) : U32 :=
  if set then word ||| value else word &&& ~~~value

/-- The write has done to the enable bits of the writing processor what it does to a word. -/
def Routed (σ : VgicdState) (e : EnableWrite) (σ' : VgicdState) : Prop :=
  (σ'.vcpu e.vcpuid).enableWord e.n = refWrite e.set e.value ((σ.vcpu e.vcpuid).enableWord e.n)

/-- The write has done so, and both registers of the word read back its enable bits. -/
def EnableLaw (env : VgicdEnv) (σ : VgicdState) (e : EnableWrite) (σ' : VgicdState) : Prop :=
  Routed σ e σ' ∧ ∀ set, vgicdReadHandler env e.vcpuid (enableOffset set e.n) σ'.gicd =
    .ok ((σ'.vcpu e.vcpuid).enableWord e.n)

theorem getLsbD_enableWord (v : Vcpu) (n : Fin 32) {b : ℕ} (hb : b < 32) :
    (v.enableWord n).getLsbD b = v.irqEnabled (virqAt n b) := getLsbD_ofBits _ hb

theorem getLsbD_refWrite (set : Bool) (value word : U32) {b : ℕ} (hb : b < 32) :
    (refWrite set value word).getLsbD b = if value.getLsbD b then set else word.getLsbD b := by
  cases set
  · rw [refWrite, if_neg Bool.false_ne_true, BitVec.getLsbD_and, BitVec.getLsbD_not]
    cases value.getLsbD b <;> simp [hb]
  · rw [refWrite, if_pos rfl, BitVec.getLsbD_or]
    cases value.getLsbD b <;> simp

/-! ## The words behind the registers -/

def Vgicd.word (g : Vgicd) (set : Bool) (k : Fin 8) (n : Fin 32) : U32 :=
  if n = 0 then (if set then g.isenabler0 k else g.icenabler0 k)
  else if set then g.isenabler n else g.icenabler n

def Vgicd.setWord (set : Bool) (k : Fin 8) (n : Fin 32) (x : U32) (g : Vgicd) : Vgicd :=
  if n = 0 then
    if set then { g with isenabler0 := Function.update g.isenabler0 k x }
    else { g with icenabler0 := Function.update g.icenabler0 k x }
  else if set then { g with isenabler := Function.update g.isenabler n x }
  else { g with icenabler := Function.update g.icenabler n x }

/-- The words are separate, except that all processors share those but the first. -/
theorem word_setWord (g : Vgicd) (set set' : Bool) (k k' : Fin 8) (n n' : Fin 32) (x : U32) :
    (g.setWord set k n x).word set' k' n' =
      if set' = set ∧ n' = n ∧ (n = 0 → k' = k) then x else g.word set' k' n' := by
  rw [Vgicd.setWord, Vgicd.word, Vgicd.word]
  by_cases hn : n = 0
  · by_cases hn' : n' = 0
    · cases set <;> cases set' <;> simp [hn, hn', Function.update_apply]
    · have hne : ¬ n' = n := fun h => hn' (h.trans hn)
      cases set <;> cases set' <;> simp [hn, hn']
  · by_cases hn' : n' = 0
    · have hne : ¬ (0 : Fin 32) = n := fun h => hn h.symm
      cases set <;> cases set' <;> simp [hn, hn', hne]
    · cases set <;> cases set' <;> simp [hn, hn', Function.update_apply]

theorem gicdDecode_enable : ∀ (set : Bool) (n : Fin 32),
    gicdDecode (enableOffset set n) = some (enableReg set) := by
  decide +kernel

theorem word_enableOffset : ∀ (set : Bool) (n : Fin 32),
    (enableReg set).word (enableOffset set n) = BitVec.ofNat 32 n := by
  decide +kernel

theorem ofNat_eq_zero_iff : ∀ n : Fin 32, BitVec.ofNat 32 n.val = 0 ↔ n = 0 := by
  decide

theorem toNat_ofNat_fin : ∀ n : Fin 32, (BitVec.ofNat 32 n.val).toNat = n.val := by
  decide

theorem vgicdReadHandler_enable (env : VgicdEnv) (k : Fin 8) (set : Bool) (n : Fin 32) (g : Vgicd) :
    vgicdReadHandler env k (enableOffset set n) g = .ok (g.word set k n) := by
  have hdecode := gicdDecode_enable set n
  have hword := word_enableOffset set n
  rw [vgicdReadHandler, hdecode, Vgicd.word]
  cases set with
  | false =>
      simp only [enableReg, Bool.false_eq_true, if_false] at hword ⊢
      simp only [hword, ofNat_eq_zero_iff, toNat_ofNat_fin, index_val]
      by_cases hn : n = 0
      · rw [if_pos hn, if_pos hn]
      · rw [if_neg hn, if_neg hn]
  | true =>
      simp only [enableReg, if_true] at hword ⊢
      simp only [hword, ofNat_eq_zero_iff, toNat_ofNat_fin, index_val]
      by_cases hn : n = 0
      · rw [if_pos hn, if_pos hn]
      · rw [if_neg hn, if_neg hn]

/-- `set_enable` or `set_clear`. -/
def VgicdState.switch (set : Bool) (vcpuid : ℕ) (currentStatus n oldStatus : U32)
    (σ : VgicdState) : Except VgicdFault VgicdState :=
  if set then σ.setEnable vcpuid currentStatus n oldStatus
  else σ.setClear vcpuid currentStatus n oldStatus

/-- A write accumulates in the word, and acts on the bits that are new in it. -/
theorem vgicdWriteHandler_enable (env : VgicdEnv) (k : Fin 8) (set : Bool) (n : Fin 32)
    (value : U32) (σ : VgicdState) :
    vgicdWriteHandler env k (enableOffset set n) value σ =
      (σ.setGicd (σ.gicd.setWord set k n (σ.gicd.word set k n ||| value))).switch set k
        (σ.gicd.word set k n ||| value) (BitVec.ofNat 32 n) (σ.gicd.word set k n) := by
  have hdecode := gicdDecode_enable set n
  have hword := word_enableOffset set n
  rw [vgicdWriteHandler, hdecode, Vgicd.setWord, Vgicd.word, VgicdState.switch]
  cases set with
  | false =>
      simp only [enableReg, Bool.false_eq_true, if_false] at hword ⊢
      simp only [hword, ofNat_eq_zero_iff, toNat_ofNat_fin]
      by_cases hn : n = 0
      · simp only [if_pos hn, index_val, assign_val]
        rfl
      · simp only [if_neg hn, index_val, assign_val]
        rfl
  | true =>
      simp only [enableReg, if_true] at hword ⊢
      simp only [hword, ofNat_eq_zero_iff, toNat_ofNat_fin]
      by_cases hn : n = 0
      · simp only [if_pos hn, index_val, assign_val]
        rfl
      · simp only [if_neg hn, index_val, assign_val]
        rfl

/-! ## What a write does -/

/-- The virtual interrupts whose bits are new in the word of the register, from the top down. -/
def VgicdState.freshVirqs (σ : VgicdState) (e : EnableWrite) : List (Fin 1024) :=
  (deltaBits (σ.gicd.word e.set e.vcpuid e.n) (σ.gicd.word e.set e.vcpuid e.n ||| e.value)).map
    (virqAt e.n)

def wordOf (x : Fin 1024) : Fin 32 := ⟨x / 32, by omega⟩

theorem virqAt_val (n : Fin 32) {b : ℕ} (hb : b < 32) : (virqAt n b).val = 32 * n + b :=
  Nat.mod_eq_of_lt (by omega)

theorem virqAt_eq_iff {n : Fin 32} {b : ℕ} (hb : b < 32) {x : Fin 1024} :
    x = virqAt n b ↔ n = wordOf x ∧ b = x % 32 := by
  rw [Fin.ext_iff, virqAt_val n hb, Fin.ext_iff, wordOf]
  dsimp only
  omega

def EnableWrite.Names (e : EnableWrite) (x : Fin 1024) : Prop :=
  e.n = wordOf x ∧ e.value.getLsbD (x % 32) = true

instance (e : EnableWrite) (x : Fin 1024) : Decidable (e.Names x) :=
  inferInstanceAs (Decidable (_ ∧ _))

/-- The bit of an interrupt in an enable register, as processor `k` sees it. -/
def Vgicd.bit (g : Vgicd) (set : Bool) (k : Fin 8) (x : Fin 1024) : Bool :=
  (g.word set k (wordOf x)).getLsbD (x % 32)

theorem mem_freshVirqs {σ : VgicdState} {e : EnableWrite} {x : Fin 1024} :
    x ∈ σ.freshVirqs e ↔ e.Names x ∧ σ.gicd.bit e.set e.vcpuid x = false := by
  have hbit : ∀ old value : Bool, (old ^^ (old || value)) = true ↔ value = true ∧ old = false := by
    decide
  rw [VgicdState.freshVirqs, List.mem_map, EnableWrite.Names, Vgicd.bit]
  constructor
  · rintro ⟨b, hb, hx⟩
    rw [deltaBits, mem_bitsBelow, BitVec.getLsbD_xor, BitVec.getLsbD_or, hbit] at hb
    obtain ⟨hn, rfl⟩ := (virqAt_eq_iff hb.1).mp hx.symm
    rw [← hn]
    exact ⟨⟨rfl, hb.2.1⟩, hb.2.2⟩
  · rintro ⟨⟨hn, hvalue⟩, hold⟩
    have hlt : x.val % 32 < 32 := Nat.mod_lt _ (by decide)
    refine ⟨x % 32, ?_, ((virqAt_eq_iff hlt).mpr ⟨hn, rfl⟩).symm⟩
    rw [deltaBits, mem_bitsBelow, BitVec.getLsbD_xor, BitVec.getLsbD_or, hbit]
    rw [← hn] at hold
    exact ⟨hlt, hvalue, hold⟩

/-- What a write leaves: the word has accumulated the value, and the interrupts of the bits that are
new in it have been switched, for the processor that has written and for no other. -/
structure EnableWritten (σ : VgicdState) (e : EnableWrite) (σ' : VgicdState) : Prop where
  gicd : σ'.gicd = σ.gicd.setWord e.set e.vcpuid e.n (σ.gicd.word e.set e.vcpuid e.n ||| e.value)
  switched : (σ.vcpu e.vcpuid).Switched e.set (σ.freshVirqs e) (σ'.vcpu e.vcpuid)
  other : ∀ k, k ≠ e.vcpuid.val → σ'.vcpu k = σ.vcpu k

/-- The maps of all virtual processors name interrupts of the table only. -/
def VgicdState.MapsOk (σ : VgicdState) : Prop := ∀ k, (σ.vcpu k).MapOk

variable {env : VgicdEnv} {σ σ' : VgicdState} {e : EnableWrite}

theorem setEnable_ok {k : ℕ} (hv : (σ.vcpu k).MapOk) (currentStatus oldStatus : U32) (n : Fin 32) :
    ∃ v' phys, σ.setEnable k currentStatus (BitVec.ofNat 32 n) oldStatus =
        .ok { σ with vcpu := Function.update σ.vcpu k v', phys := phys } ∧
      (σ.vcpu k).Switched true ((deltaBits oldStatus currentStatus).map (virqAt n)) v' := by
  obtain ⟨v', hv', hswitched⟩ := setEnable_some (n := n) hv currentStatus oldStatus σ.phys
  refine ⟨v', σ.phys ++ (deltaBits oldStatus currentStatus).map fun b =>
    gicEnableIrq ((σ.vcpu k).pirqOf (virqAt n b)), ?_, hswitched⟩
  rw [VgicdState.setEnable, hv']
  rfl

theorem setClear_ok {k : ℕ} (hv : (σ.vcpu k).MapOk) (currentStatus oldStatus : U32) (n : Fin 32) :
    ∃ v' phys, σ.setClear k currentStatus (BitVec.ofNat 32 n) oldStatus =
        .ok { σ with vcpu := Function.update σ.vcpu k v', phys := phys } ∧
      (σ.vcpu k).Switched false ((deltaBits oldStatus currentStatus).map (virqAt n)) v' := by
  obtain ⟨v', hv', hswitched⟩ := setClear_some (n := n) hv currentStatus oldStatus
  refine ⟨v', σ.phys, ?_, hswitched⟩
  rw [VgicdState.setClear, hv']
  rfl

theorem switch_ok (set : Bool) {k : ℕ} (hv : (σ.vcpu k).MapOk) (currentStatus oldStatus : U32)
    (n : Fin 32) :
    ∃ v' phys, σ.switch set k currentStatus (BitVec.ofNat 32 n) oldStatus =
        .ok { σ with vcpu := Function.update σ.vcpu k v', phys := phys } ∧
      (σ.vcpu k).Switched set ((deltaBits oldStatus currentStatus).map (virqAt n)) v' := by
  cases set with
  | false => exact setClear_ok hv currentStatus oldStatus n
  | true => exact setEnable_ok hv currentStatus oldStatus n

theorem vgicdStep_some (env : VgicdEnv) (hσ : σ.MapsOk) (e : EnableWrite) :
    ∃ σ', vgicdStep env σ e = some σ' ∧ EnableWritten σ e σ' := by
  obtain ⟨v', phys, hok, hswitched⟩ := switch_ok
    (σ := σ.setGicd
      (σ.gicd.setWord e.set e.vcpuid e.n (σ.gicd.word e.set e.vcpuid e.n ||| e.value)))
    e.set (hσ e.vcpuid) (σ.gicd.word e.set e.vcpuid e.n ||| e.value)
    (σ.gicd.word e.set e.vcpuid e.n) e.n
  refine ⟨_, (congrArg Except.toOption ((vgicdWriteHandler_enable env _ _ _ _ σ).trans hok)), ?_⟩
  refine ⟨rfl, ?_, fun j hj => Function.update_of_ne hj _ _⟩
  dsimp only
  rw [Function.update_self]
  exact hswitched

theorem vgicdStep_written (hσ : σ.MapsOk) (h : vgicdStep env σ e = some σ') :
    EnableWritten σ e σ' := by
  obtain ⟨τ, hτ, hwritten⟩ := vgicdStep_some env hσ e
  rw [hτ, Option.some.injEq] at h
  rwa [← h]

theorem EnableWritten.mapsOk (h : EnableWritten σ e σ') (hσ : σ.MapsOk) : σ'.MapsOk := by
  intro k
  by_cases hk : k = e.vcpuid.val
  · rw [hk]
    exact (hσ _).congr (h.switched.pirqOf (hσ _))
  · rw [h.other k hk]
    exact hσ k

/-- A write leaves the bits that it does not name, and those of the other register. -/
theorem EnableWritten.bit (h : EnableWritten σ e σ') (set : Bool) (k : Fin 8) (x : Fin 1024) :
    σ'.gicd.bit set k x = (σ.gicd.bit set k x ||
      decide (set = e.set ∧ (wordOf x = 0 → k = e.vcpuid) ∧ e.Names x)) := by
  rw [Vgicd.bit, h.gicd, word_setWord, Vgicd.bit]
  by_cases hsame : set = e.set ∧ wordOf x = e.n ∧ (e.n = 0 → k = e.vcpuid)
  · obtain ⟨hset, hword, hk⟩ := hsame
    have hold : σ.gicd.word e.set e.vcpuid e.n = σ.gicd.word set k (wordOf x) := by
      rw [hset, hword, Vgicd.word, Vgicd.word]
      by_cases hn : e.n = 0
      · rw [if_pos hn, if_pos hn, hk hn]
      · rw [if_neg hn, if_neg hn]
    rw [if_pos ⟨hset, hword, hk⟩, hold, BitVec.getLsbD_or]
    have hnames : (set = e.set ∧ (wordOf x = 0 → k = e.vcpuid) ∧ e.Names x) ↔
        e.value.getLsbD (x % 32) = true :=
      ⟨fun h => h.2.2.2, fun hvalue => ⟨hset, fun hzero => hk (hword ▸ hzero), hword.symm, hvalue⟩⟩
    simp only [hnames, Bool.decide_eq_true]
  · rw [if_neg hsame]
    have hnone : ¬ (set = e.set ∧ (wordOf x = 0 → k = e.vcpuid) ∧ e.Names x) := by
      rintro ⟨hset, hk, hn, -⟩
      exact hsame ⟨hset, hn.symm, fun hzero => hk (hn ▸ hzero)⟩
    rw [decide_eq_false hnone, Bool.or_false]

theorem create_mapsOk (vserial : Bool) (vmid : VmId) (vcpu : ℕ → Vcpu) (typer iidr : U32) :
    (VgicdState.create vserial vmid vcpu typer iidr).MapsOk :=
  fun _ => mapOk_of_forall fun i => (initMap_ok vserial vmid i).2

/-- No write of a guest to the enable registers makes the distributor leave an array. -/
theorem run_vgicdStep (env : VgicdEnv) (hσ : σ.MapsOk) (es : List EnableWrite) :
    ∃ τ, run (vgicdStep env) σ es = some τ ∧ τ.MapsOk := by
  refine run_total es hσ fun u e _ hu => ?_
  obtain ⟨v, hv, hwritten⟩ := vgicdStep_some env hu e
  exact ⟨v, hv, hwritten.mapsOk hu⟩

/-! ## The routing -/

/-- The bits that are one in the value are those whose interrupts the write reaches, apart from
interrupts that are in the state that the write would put them in already. -/
def EnableWrite.Reaches (σ : VgicdState) (e : EnableWrite) : Prop :=
  ∀ b < 32, (σ.vcpu e.vcpuid).irqEnabled (virqAt e.n b) ≠ e.set →
    (e.value.getLsbD b = true ↔
      ∃ x ∈ σ.freshVirqs e, (σ.vcpu e.vcpuid).Serves x (virqAt e.n b))

theorem ite_eq_ite_iff_of_bool {p q : Prop} [Decidable p] [Decidable q] (a b : Bool) :
    (if p then a else b) = (if q then a else b) ↔ (b ≠ a → (q ↔ p)) := by
  by_cases hp : p <;> by_cases hq : q <;> simp [hp, hq, eq_comm]

theorem EnableWritten.routed_iff (h : EnableWritten σ e σ') : Routed σ e σ' ↔ e.Reaches σ := by
  rw [Routed, EnableWrite.Reaches, BitVec.eq_of_getLsbD_eq_iff]
  refine forall_congr' fun b => imp_congr_right fun hb => ?_
  rw [getLsbD_enableWord _ _ hb, getLsbD_refWrite _ _ _ hb, getLsbD_enableWord _ _ hb,
    h.switched.enabled, ite_eq_ite_iff_of_bool]

/-- The writes of a run are routed as the reference model says if and only if each of them
reaches what it names: no bit is written again after it has been written to the other register,
and no interrupt shares its entry with another one. -/
theorem routed_run_iff (env : VgicdEnv) (vserial : Bool) (vmid : VmId) (vcpu : ℕ → Vcpu)
    (typer iidr : U32) (es : List EnableWrite) :
    Follows (vgicdStep env) Routed (.create vserial vmid vcpu typer iidr) es ↔
      Follows (vgicdStep env) (fun σ e _ => e.Reaches σ)
        (.create vserial vmid vcpu typer iidr) es :=
  follows_congr (create_mapsOk vserial vmid vcpu typer iidr)
    (fun _ _ _ _ hu hstep => (vgicdStep_written hu hstep).routed_iff)
    fun _ _ _ _ hu hstep _ => (vgicdStep_written hu hstep).mapsOk hu

/-! ## The whole law -/

/-- Nothing has been written to the enable registers yet. -/
structure Unwritten (σ : VgicdState) : Prop where
  mapsOk : σ.MapsOk
  word : ∀ set k n, σ.gicd.word set k n = 0
  enabled : ∀ k i, (σ.vcpu k).irqEnabled i = false

theorem create_unwritten (vserial : Bool) (vmid : VmId) (vcpu : ℕ → Vcpu) (typer iidr : U32) :
    Unwritten (.create vserial vmid vcpu typer iidr) := by
  refine ⟨create_mapsOk vserial vmid vcpu typer iidr, fun set k n => ?_, fun k i => ?_⟩
  · rw [Vgicd.word]
    split <;> split <;> rfl
  · have hdisabled := (initMap_ok vserial vmid i).1
    rw [Vcpu.irqEnabled, VgicdState.create]
    dsimp only
    rw [hdisabled]
    rfl

theorem Unwritten.enableWord (h : Unwritten σ) (k : ℕ) (n : Fin 32) :
    (σ.vcpu k).enableWord n = 0 :=
  (ofBits_eq_zero_iff _).mpr fun b _ => h.enabled k (virqAt n b)

theorem Unwritten.written_zero (h : Unwritten σ) (hwritten : EnableWritten σ e σ')
    (hvalue : e.value = 0) : Unwritten σ' := by
  have hfresh : σ.freshVirqs e = [] := by
    refine List.eq_nil_iff_forall_not_mem.mpr fun x hx => ?_
    have hbit := (mem_freshVirqs.mp hx).1.2
    simp [hvalue] at hbit
  refine ⟨hwritten.mapsOk h.mapsOk, fun set k n => ?_, fun k i => ?_⟩
  · rw [hwritten.gicd, word_setWord, h.word, h.word, hvalue]
    split <;> rfl
  · by_cases hk : k = e.vcpuid.val
    · rw [hk, hwritten.switched.enabled, hfresh]
      simp [h.enabled]
    · rw [hwritten.other k hk]
      exact h.enabled k i

/-- The two registers of a word read back alike only after a write of zero. -/
theorem Unwritten.law_iff (h : Unwritten σ) (hwritten : EnableWritten σ e σ') :
    EnableLaw env σ e σ' ↔ e.value = 0 := by
  have hword : ∀ set, σ'.gicd.word set e.vcpuid e.n = if set = e.set then e.value else 0 := by
    intro set
    rw [hwritten.gicd, word_setWord, h.word, h.word]
    simp
  constructor
  · rintro ⟨-, hread⟩
    have hsame := hread e.set
    have hother := hread (!e.set)
    rw [vgicdReadHandler_enable, hword, if_pos rfl] at hsame
    rw [vgicdReadHandler_enable, hword, if_neg (Bool.not_ne_self e.set)] at hother
    exact Except.ok.inj (hsame.trans hother.symm)
  · intro hvalue
    have hzero := h.written_zero hwritten hvalue
    refine ⟨?_, fun set => ?_⟩
    · rw [Routed, hzero.enableWord, h.enableWord, refWrite, hvalue]
      split <;> rfl
    · rw [vgicdReadHandler_enable, hzero.word, hzero.enableWord]

/-- The writes of a run obey the enable law if and only if they are all zero. -/
theorem enable_law_iff (env : VgicdEnv) (vserial : Bool) (vmid : VmId) (vcpu : ℕ → Vcpu)
    (typer iidr : U32) (es : List EnableWrite) :
    Follows (vgicdStep env) (EnableLaw env) (.create vserial vmid vcpu typer iidr) es ↔
      ∀ e ∈ es, e.value = 0 := by
  have hstart := create_unwritten vserial vmid vcpu typer iidr
  have hzero : Follows (vgicdStep env) (EnableLaw env) (.create vserial vmid vcpu typer iidr) es ↔
      Follows (vgicdStep env) (fun _ e _ => e.value = 0)
        (.create vserial vmid vcpu typer iidr) es :=
    follows_congr hstart
      (fun _ _ _ _ hu hstep => hu.law_iff (vgicdStep_written hu.mapsOk hstep))
      fun _ _ _ _ hu hstep => hu.written_zero (vgicdStep_written hu.mapsOk hstep)
  rw [hzero]
  refine follows_event_iff hstart fun u e _ hu hvalue => ?_
  obtain ⟨v, hv, hwritten⟩ := vgicdStep_some env hu.mapsOk e
  exact ⟨v, hv, hu.written_zero hwritten hvalue⟩

/-- A virtual machine with one virtual processor, which enables interrupt 32, disables it and
enables it again: the last write enables nothing. -/
theorem enabled_again_stays_disabled :
    ∃ σ, run (vgicdStep ⟨31, 1, 0, fun _ => 0⟩) (.create true 0 (fun _ => default) 0 0)
        [⟨0, true, 1, 1⟩, ⟨0, false, 1, 1⟩, ⟨0, true, 1, 1⟩] = some σ ∧
      (σ.vcpu 0).irqEnabled 32 = false ∧
      ¬ Follows (vgicdStep ⟨31, 1, 0, fun _ => 0⟩) (EnableLaw ⟨31, 1, 0, fun _ => 0⟩)
        (.create true 0 (fun _ => default) 0 0)
        [⟨0, true, 1, 1⟩, ⟨0, false, 1, 1⟩, ⟨0, true, 1, 1⟩] := by
  have hlast : (run (vgicdStep ⟨31, 1, 0, fun _ => 0⟩) (.create true 0 (fun _ => default) 0 0)
      [⟨0, true, 1, 1⟩, ⟨0, false, 1, 1⟩, ⟨0, true, 1, 1⟩]).map
        (fun σ => (σ.vcpu 0).irqEnabled 32) = some false := by
    decide +kernel
  obtain ⟨σ, hσ, hdisabled⟩ := Option.map_eq_some_iff.mp hlast
  refine ⟨σ, hσ, hdisabled, ?_⟩
  rintro ⟨σ₁, h₁, -, σ₂, h₂, -, σ₃, h₃, ⟨hrouted, -⟩, -⟩
  have hend : σ₃ = σ := by
    rw [run_cons, h₁, Option.bind_some, run_cons, h₂, Option.bind_some, run_cons, h₃,
      Option.bind_some, run_nil, Option.some.injEq] at hσ
    exact hσ
  have hbit : (refWrite true 1 ((σ₂.vcpu 0).enableWord 1)).getLsbD 0 = true := by
    rw [getLsbD_refWrite _ _ _ (by decide)]
    rfl
  have henabled : ((σ.vcpu 0).enableWord 1).getLsbD 0 = true := by
    rw [← hend]
    exact (congrArg (BitVec.getLsbD · 0) hrouted).trans hbit
  rw [getLsbD_enableWord _ _ (by decide)] at henabled
  exact Bool.noConfusion (hdisabled.symm.trans henabled)

end KHypervisor
