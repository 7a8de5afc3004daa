import KHypervisor.Vdev.EnableLaw

/-!
# The two directions of the interrupt map

The map of a virtual processor holds the physical interrupt of every virtual one and the virtual
interrupt of every physical one. A guest that enables an interrupt enters both directions, on the
number of the interrupt itself unless the map has a physical interrupt for it. That number may
belong to the serial line already.
-/

namespace KHypervisor

open Run

/-- The two directions of the map are mutually inverse. -/
def Vcpu.MapsInverse (v : Vcpu) : Prop :=
  ∀ x p : Fin 1024, (v.map x).pirq = BitVec.ofNat 32 p ↔ (v.map p).virq = BitVec.ofNat 32 x

/-- The serial line is mapped as `vcpu_init` has mapped it. -/
def Vcpu.SerialKept (vserial : Bool) (vmid : VmId) (v : Vcpu) : Prop :=
  ∀ p x, serialMap vserial vmid = some (p, x) →
    (v.map x).pirq = BitVec.ofNat 32 p ∧ (v.map p).virq = BitVec.ofNat 32 x

/-- The physical interrupt of the serial line, where it is not its virtual one. -/
def clashing (vserial : Bool) (vmid : VmId) (q : Fin 1024) : Prop :=
  ∃ x, serialMap vserial vmid = some (q, x) ∧ q ≠ x

/-- The write is one to the bit of an interrupt in an enabling register. -/
def EnableWrite.Sets (e : EnableWrite) (x : Fin 1024) : Prop := e.set = true ∧ e.Names x

theorem initMap_inverse {vserial : Bool} {vmid : VmId} {v : Vcpu}
    (h : v.map = initMap vserial vmid) : v.MapsInverse := by
  intro x p
  rw [h, initMap_pirq, initMap_virq]
  cases serialMap vserial vmid with
  | none =>
      exact ⟨fun hx => absurd hx (pirqInvalid_ne_ofNat p),
        fun hp => absurd hp (pirqInvalid_ne_ofNat x)⟩
  | some pair =>
      dsimp only
      by_cases hx : x = pair.2 <;> by_cases hp : p = pair.1
      · rw [if_pos hx, if_pos hp, hx, hp]
        exact ⟨fun _ => rfl, fun _ => rfl⟩
      · rw [if_pos hx, if_neg hp, ofNat_fin_inj]
        exact ⟨fun h => absurd h.symm hp, fun h => absurd h (pirqInvalid_ne_ofNat x)⟩
      · rw [if_neg hx, if_pos hp, ofNat_fin_inj]
        exact ⟨fun h => absurd h (pirqInvalid_ne_ofNat p), fun h => absurd h.symm hx⟩
      · rw [if_neg hx, if_neg hp]
        exact ⟨fun h => absurd h (pirqInvalid_ne_ofNat p),
          fun h => absurd h (pirqInvalid_ne_ofNat x)⟩

/-- Two virtual interrupts stand for one physical interrupt only if that is the one of the serial
line. -/
theorem physOf_inj {vserial : Bool} {vmid : VmId} {x y : Fin 1024}
    (hx : ¬ clashing vserial vmid x) (hy : ¬ clashing vserial vmid y)
    (h : physOf vserial vmid x = physOf vserial vmid y) : x = y := by
  have hcases : ∀ z, ¬ clashing vserial vmid z →
      (physOf vserial vmid z = z ∧ ∀ p w, serialMap vserial vmid = some (p, w) → z ≠ w → z ≠ p) ∨
        ∃ p, serialMap vserial vmid = some (p, z) ∧ physOf vserial vmid z = p := by
    intro z hz
    rw [physOf]
    cases hserial : serialMap vserial vmid with
    | none => exact .inl ⟨rfl, fun p w h => by simp at h⟩
    | some pair =>
        dsimp only
        by_cases hw : z = pair.2
        · rw [if_pos hw, hw]
          exact .inr ⟨pair.1, rfl, rfl⟩
        · rw [if_neg hw]
          refine .inl ⟨rfl, fun p w hpair hzw hzp => hz ⟨w, ?_, hzw⟩⟩
          rw [hserial, hpair, hzp]
  rcases hcases x hx with ⟨hxx, hxne⟩ | ⟨p, hp, hxp⟩ <;>
    rcases hcases y hy with ⟨hyy, hyne⟩ | ⟨q, hq, hyq⟩
  · rw [← hxx, h, hyy]
  · by_contra hne
    exact hxne q y hq hne (hxx.symm.trans (h.trans hyq))
  · by_contra hne
    exact hyne p x hp (Ne.symm hne) (hyy.symm.trans (h.symm.trans hxp))
  · rw [hp, Option.some.injEq, Prod.mk.injEq] at hq
    exact hq.2

/-! ## As long as nobody enables the clashing interrupt -/

/-- The interrupts stand for what they stood for in the beginning, both directions agree, and the
clashing interrupt has never been mapped. -/
structure MapInv (vserial : Bool) (vmid : VmId) (v : Vcpu) : Prop where
  stands : ∀ x, v.pirqOf x = BitVec.ofNat 32 (physOf vserial vmid x)
  inverse : v.MapsInverse
  unmapped : ∀ q, clashing vserial vmid q → (v.map q).pirq = pirqInvalid

variable {vserial : Bool} {vmid : VmId} {v v' : Vcpu}

theorem mapOk_of_physOf (h : ∀ x, v.pirqOf x = BitVec.ofNat 32 (physOf vserial vmid x)) :
    v.MapOk :=
  fun x => ⟨physOf vserial vmid x, by rw [h, mapIndex_ofNat]⟩

theorem mapInv_of_initMap (h : v.map = initMap vserial vmid) : MapInv vserial vmid v := by
  refine ⟨pirqOf_initMap h, initMap_inverse h, fun q hq => ?_⟩
  obtain ⟨x, hserial, hne⟩ := hq
  rw [h, initMap_pirq, hserial]
  exact if_neg hne

/-- A physical interrupt that the map has for a virtual one is the one that it stands for. -/
theorem MapInv.physOf_of_pirq (h : MapInv vserial vmid v) {x p : Fin 1024}
    (hx : (v.map x).pirq = BitVec.ofNat 32 p) : physOf vserial vmid x = p := by
  have hstands := h.stands x
  rw [Vcpu.pirqOf, hx, if_neg (pirqInvalid_ne_ofNat p).symm, ofNat_fin_inj] at hstands
  exact hstands.symm

/-- Enabling interrupts that do not clash keeps the directions inverse to one another. -/
theorem MapInv.enabled (h : MapInv vserial vmid v) {xs : List (Fin 1024)}
    (hs : v.Switched true xs v') (hxs : ∀ x ∈ xs, ¬ clashing vserial vmid x) :
    MapInv vserial vmid v' := by
  have hpirq : ∀ x, (v'.map x).pirq =
      if x ∈ xs then BitVec.ofNat 32 (physOf vserial vmid x) else (v.map x).pirq := fun x => by
    rw [hs.pirq, h.stands]
    simp only [true_and]
  refine ⟨fun x => ?_, fun x p => ?_, fun q hq => ?_⟩
  · rw [hs.pirqOf (mapOk_of_physOf h.stands), h.stands]
  · rw [hpirq, hs.virq, if_pos rfl]
    cases hlast : v.lastMappedTo xs p with
    | none =>
        -- No interrupt that is enabled stands for `p`.
        have hnone : ∀ y ∈ xs, physOf vserial vmid y ≠ p := by
          intro y hy hyp
          have hfind := List.find?_eq_none.mp hlast y (List.mem_reverse.mpr hy)
          rw [h.stands, hyp] at hfind
          simp at hfind
        rw [Option.map_none, Option.getD_none, ← h.inverse x p]
        by_cases hx : x ∈ xs
        · rw [if_pos hx, ofNat_fin_inj]
          exact ⟨fun hxp => absurd hxp (hnone x hx),
            fun hold => absurd (h.physOf_of_pirq hold) (hnone x hx)⟩
        · rw [if_neg hx]
    | some z =>
        have hz : z ∈ xs := List.mem_reverse.mp (List.mem_of_find?_eq_some hlast)
        have hzp : physOf vserial vmid z = p := by
          have hfind := List.find?_some hlast
          rw [h.stands, decide_eq_true_eq, ofNat_fin_inj] at hfind
          exact hfind
        rw [Option.map_some, Option.getD_some, ofNat_fin_inj]
        constructor
        · intro hxp
          by_cases hx : x ∈ xs
          · rw [if_pos hx, ofNat_fin_inj] at hxp
            exact physOf_inj (hxs z hz) (hxs x hx) (hzp.trans hxp.symm)
          · rw [if_neg hx] at hxp
            refine physOf_inj (hxs z hz) (fun hclash => ?_)
              (hzp.trans (h.physOf_of_pirq hxp).symm)
            exact pirqInvalid_ne_ofNat p ((h.unmapped x hclash).symm.trans hxp)
        · rintro rfl
          rw [if_pos hz, hzp]
  · rw [hpirq, if_neg fun hmem => hxs q hmem hq]
    exact h.unmapped q hq

theorem MapInv.disabled (h : MapInv vserial vmid v) {xs : List (Fin 1024)}
    (hs : v.Switched false xs v') : MapInv vserial vmid v' := by
  have hpirq : ∀ x, (v'.map x).pirq = (v.map x).pirq := fun x =>
    (hs.pirq x).trans (if_neg fun hfalse => Bool.noConfusion hfalse.1)
  have hvirq : ∀ p, (v'.map p).virq = (v.map p).virq := fun p =>
    (hs.virq p).trans (if_neg Bool.false_ne_true)
  refine ⟨fun x => ?_, fun x p => ?_, fun q hq => ?_⟩
  · rw [hs.pirqOf (mapOk_of_physOf h.stands), h.stands]
  · rw [hpirq, hvirq]
    exact h.inverse x p
  · rw [hpirq]
    exact h.unmapped q hq

variable {env : VgicdEnv} {σ σ' : VgicdState} {e : EnableWrite}

theorem EnableWritten.mapInv (hw : EnableWritten σ e σ')
    (h : ∀ k, MapInv vserial vmid (σ.vcpu k))
    (he : ∀ q, clashing vserial vmid q → ¬ e.Sets q) (k : ℕ) :
    MapInv vserial vmid (σ'.vcpu k) := by
  by_cases hk : k = e.vcpuid.val
  · rw [hk]
    have hs := hw.switched
    cases hset : e.set with
    | false =>
        rw [hset] at hs
        exact (h _).disabled hs
    | true =>
        rw [hset] at hs
        exact (h _).enabled hs fun x hx hclash => he x hclash ⟨hset, (mem_freshVirqs.mp hx).1⟩
  · rw [hw.other k hk]
    exact h k

/-! ## Once somebody has enabled it -/

theorem Vcpu.Switched.pirq_of_valid {set : Bool} {xs : List (Fin 1024)}
    (hs : v.Switched set xs v') {x p : Fin 1024} (h : (v.map x).pirq = BitVec.ofNat 32 p) :
    (v'.map x).pirq = BitVec.ofNat 32 p := by
  rw [hs.pirq, Vcpu.pirqOf, h, if_neg (pirqInvalid_ne_ofNat p).symm, ite_self]

theorem EnableWritten.pirq_of_valid (hw : EnableWritten σ e σ') {k : ℕ} {x p : Fin 1024}
    (h : ((σ.vcpu k).map x).pirq = BitVec.ofNat 32 p) :
    ((σ'.vcpu k).map x).pirq = BitVec.ofNat 32 p := by
  by_cases hk : k = e.vcpuid.val
  · rw [hk] at h ⊢
    exact hw.switched.pirq_of_valid h
  · rw [hw.other k hk]
    exact h

theorem EnableWritten.pirqOf (hw : EnableWritten σ e σ') (hσ : σ.MapsOk) (k : ℕ) (x : Fin 1024) :
    (σ'.vcpu k).pirqOf x = (σ.vcpu k).pirqOf x := by
  by_cases hk : k = e.vcpuid.val
  · rw [hk]
    exact hw.switched.pirqOf (hσ _) x
  · rw [hw.other k hk]

/-- What holds of every reachable state: the interrupts stand for what they stood for in the
beginning, the serial line's physical interrupt is in its entry, and if the bit of interrupt `q`
has been enabled then some processor has mapped `q` to what it stands for. -/
structure ClashInv (vserial : Bool) (vmid : VmId) (q : Fin 1024) (es : List EnableWrite)
    (σ : VgicdState) : Prop where
  stands : ∀ k x, (σ.vcpu k).pirqOf x = BitVec.ofNat 32 (physOf vserial vmid x)
  serial : ∀ k p x, serialMap vserial vmid = some (p, x) →
    ((σ.vcpu k).map x).pirq = BitVec.ofNat 32 p
  bit : ∀ k, σ.gicd.bit true k q = true →
    ∃ k', ((σ.vcpu k').map q).pirq = BitVec.ofNat 32 (physOf vserial vmid q)
  sets : (∃ e ∈ es, e.Sets q) →
    ∃ k, ((σ.vcpu k).map q).pirq = BitVec.ofNat 32 (physOf vserial vmid q)

theorem ClashInv.mapsOk {q : Fin 1024} {es : List EnableWrite} (h : ClashInv vserial vmid q es σ) :
    σ.MapsOk := fun k => mapOk_of_physOf (h.stands k)

theorem ClashInv.step {q : Fin 1024} {es : List EnableWrite} (h : ClashInv vserial vmid q es σ)
    (hw : EnableWritten σ e σ') : ClashInv vserial vmid q (es ++ [e]) σ' := by
  -- A bit that the write finds clear is one of those that it enables.
  have hsets : e.Sets q →
      ∃ k, ((σ'.vcpu k).map q).pirq = BitVec.ofNat 32 (physOf vserial vmid q) := by
    rintro ⟨hset, hnames⟩
    by_cases hbit : σ.gicd.bit e.set e.vcpuid q = true
    · rw [hset] at hbit
      obtain ⟨k, hk⟩ := h.bit e.vcpuid hbit
      exact ⟨k, hw.pirq_of_valid hk⟩
    · have hfresh := mem_freshVirqs.mpr ⟨hnames, Bool.not_eq_true _ ▸ hbit⟩
      refine ⟨e.vcpuid, ?_⟩
      rw [hw.switched.pirq, if_pos ⟨hset, hfresh⟩, h.stands]
  refine ⟨fun k x => ?_, fun k p x hserial => ?_, fun k hbit => ?_, ?_⟩
  · rw [hw.pirqOf h.mapsOk, h.stands]
  · exact hw.pirq_of_valid (h.serial k p x hserial)
  · rw [hw.bit, Bool.or_eq_true, decide_eq_true_eq] at hbit
    rcases hbit with hold | ⟨hset, -, hnames⟩
    · obtain ⟨k', hk'⟩ := h.bit k hold
      exact ⟨k', hw.pirq_of_valid hk'⟩
    · exact hsets ⟨hset.symm, hnames⟩
  · rintro ⟨e', hmem, he'⟩
    rcases List.mem_append.mp hmem with hmem | hmem
    · obtain ⟨k, hk⟩ := h.sets ⟨e', hmem, he'⟩
      exact ⟨k, hw.pirq_of_valid hk⟩
    · rw [List.mem_singleton.mp hmem] at he'
      exact hsets he'

theorem clashInv_create (q : Fin 1024) (vserial : Bool) (vmid : VmId) (vcpu : ℕ → Vcpu)
    (typer iidr : U32) : ClashInv vserial vmid q [] (.create vserial vmid vcpu typer iidr) := by
  refine ⟨fun k => pirqOf_initMap rfl, fun k p x hserial => ?_, fun k hbit => ?_, ?_⟩
  · have hpirq : (initMap vserial vmid x).pirq = BitVec.ofNat 32 p := by
      rw [initMap_pirq, hserial]
      exact if_pos rfl
    exact hpirq
  · rw [Vgicd.bit, (create_unwritten vserial vmid vcpu typer iidr).word] at hbit
    simp at hbit
  · rintro ⟨e, hmem, -⟩
    exact absurd hmem List.not_mem_nil

/-- The maps of all virtual processors of a machine stay mutually inverse, and the serial line
stays mapped, if and only if no guest enables the clashing interrupt. -/
theorem maps_inverse_iff (env : VgicdEnv) (vserial : Bool) (vmid : VmId) (vcpu : ℕ → Vcpu)
    (typer iidr : U32) (es : List EnableWrite) :
    ∃ σ, run (vgicdStep env) (.create vserial vmid vcpu typer iidr) es = some σ ∧
      ((∀ k, (σ.vcpu k).MapsInverse ∧ (σ.vcpu k).SerialKept vserial vmid) ↔
        ∀ q, clashing vserial vmid q → ∀ e ∈ es, ¬ e.Sets q) := by
  obtain ⟨σ, hσ, -⟩ := run_vgicdStep env (create_mapsOk vserial vmid vcpu typer iidr) es
  have hclash : ∀ q, ClashInv vserial vmid q es σ := fun q =>
    run_induction (I := fun es σ => ClashInv vserial vmid q es σ)
      (clashInv_create q vserial vmid vcpu typer iidr)
      (fun _ _ _ _ _ hu hstep => hu.step (vgicdStep_written hu.mapsOk hstep)) hσ
  refine ⟨σ, hσ, fun hinverse q hq e he hsets => ?_, fun hes => ?_⟩
  · -- Two virtual interrupts would have the same physical one.
    obtain ⟨x, hserial, hne⟩ := hq
    obtain ⟨k, hk⟩ := (hclash q).sets ⟨e, he, hsets⟩
    have hphys : physOf vserial vmid q = q := by
      rw [physOf, hserial]
      exact if_neg hne
    rw [hphys, (hinverse k).1 q q] at hk
    have hx := ((hinverse k).1 x q).mp ((hclash q).serial k q x hserial)
    exact hne (ofNat_fin_inj.mp (hk.symm.trans hx))
  · have hinv : ∀ k, MapInv vserial vmid (σ.vcpu k) := by
      refine run_induction (I := fun es' σ => (∀ e ∈ es', ∀ q, clashing vserial vmid q →
        ¬ e.Sets q) → ∀ k, MapInv vserial vmid (σ.vcpu k)) (fun _ k => mapInv_of_initMap rfl)
        (fun es' e u w _ hu hstep hes' => ?_) hσ (fun e he q hq => hes q hq e he)
      have hprev := hu fun e' he' => hes' e' (List.mem_append_left _ he')
      have hmaps : u.MapsOk := fun k => mapOk_of_physOf (hprev k).stands
      exact (vgicdStep_written hmaps hstep).mapInv hprev
        (hes' e (List.mem_append_right _ (List.mem_singleton_self e)))
    refine fun k => ⟨(hinv k).inverse, fun p x hserial => ?_⟩
    have hpirq := (hclash x).serial k p x hserial
    exact ⟨hpirq, ((hinv k).inverse x p).mp hpirq⟩

/-- Virtual machine 1 enables interrupt 39, the physical interrupt of its serial line. -/
theorem serial_line_redirected :
    ∃ σ, run (vgicdStep ⟨31, 1, 0, fun _ => 0⟩) (.create true 1 (fun _ => default) 0 0)
        [⟨0, true, 1, 1 <<< 7⟩] = some σ ∧
      ((σ.vcpu 0).map 37).pirq = 39 ∧ ((σ.vcpu 0).map 39).virq = 39 ∧
      ¬ ((∀ k, (σ.vcpu k).MapsInverse ∧ (σ.vcpu k).SerialKept true 1)) := by
  have hlast : (run (vgicdStep ⟨31, 1, 0, fun _ => 0⟩) (.create true 1 (fun _ => default) 0 0)
      [⟨0, true, 1, 1 <<< 7⟩]).map
        (fun σ => (((σ.vcpu 0).map 37).pirq, ((σ.vcpu 0).map 39).virq)) = some (39, 39) := by
    decide +kernel
  obtain ⟨σ, hσ, hpair⟩ := Option.map_eq_some_iff.mp hlast
  obtain ⟨hpirq, hvirq⟩ := Prod.mk.inj hpair
  refine ⟨σ, hσ, hpirq, hvirq, fun hall => ?_⟩
  have hserial := ((hall 0).2 39 37 rfl).2
  rw [hvirq] at hserial
  exact absurd hserial (by decide)

end KHypervisor
