import KHypervisor.Vm.Vcpu

/-!
# The interrupt map of a virtual processor

`virq_map.c`, and the map that `vcpu_create` and `vcpu_init` set up. The table has an entry for
every interrupt, which serves the virtual interrupt of that number (`pirq`) and the physical one
(`virq`) at once, with one enable field for both.
-/

namespace KHypervisor

/-- `GUEST_IRQ_ENABLE`. -/
def guestIrqEnable : U32 := 1

/-- `GUEST_IRQ_DISABLE`. -/
def guestIrqDisable : U32 := 0

/-- The number of interrupts is positive: what a literal names an interrupt by. -/
instance neZero_nrIrq : NeZero 1024 := ⟨by decide⟩

/-- The entry of an interrupt. There is none from `MAX_NR_IRQ` on. -/
def mapIndex (irq : U32) : Option (Fin 1024) :=
  if h : irq.toNat < 1024 then some ⟨irq.toNat, h⟩ else none

def Vcpu.setMap (i : Fin 1024) (entry : VirqTable) (v : Vcpu) : Vcpu :=
  { v with map := Function.update v.map i entry }

/-- `virq_to_pirq`. -/
def virqToPirq (v : Vcpu) (virq : U32) : Option U32 := (mapIndex virq).map fun i => (v.map i).pirq

/-- `pirq_to_virq`. -/
def pirqToVirq (v : Vcpu) (pirq : U32) : Option U32 := (mapIndex pirq).map fun i => (v.map i).virq

/-- `virq_enable`. -/
def virqEnable (v : Vcpu) (pirq virq : U32) : Option Vcpu :=
  (mapIndex virq).map fun i => v.setMap i { v.map i with pirq := pirq, enabled := guestIrqEnable }

/-- `virq_disable`. -/
def virqDisable (v : Vcpu) (virq : U32) : Option Vcpu :=
  (mapIndex virq).map fun i => v.setMap i { v.map i with enabled := guestIrqDisable }

/-- `pirq_enable`. -/
def pirqEnable (v : Vcpu) (pirq virq : U32) : Option Vcpu :=
  (mapIndex pirq).map fun i => v.setMap i { v.map i with virq := virq, enabled := guestIrqEnable }

/-- `pirq_disable`. -/
def pirqDisable (v : Vcpu) (pirq : U32) : Option Vcpu :=
  (mapIndex pirq).map fun i => v.setMap i { v.map i with enabled := guestIrqDisable }

/-- The map that `vcpu_create` leaves. -/
def createMap : Fin 1024 → VirqTable := fun _ => ⟨guestIrqDisable, virqInvalid, pirqInvalid⟩

/-- `SET_VIRQMAP`. -/
def setVirqmap (pirq virq : Fin 1024) (map : Fin 1024 → VirqTable) : Fin 1024 → VirqTable :=
  let map := Function.update map pirq { map pirq with virq := BitVec.ofNat 32 virq }
  Function.update map virq { map virq with pirq := BitVec.ofNat 32 pirq }

/-- The part of `vcpu_init` that maps the interrupt of the serial line, where `vserial` is
`CONFIG_VSERIAL`. -/
def mapSerial (vserial : Bool) (vmid : VmId) (map : Fin 1024 → VirqTable) : Fin 1024 → VirqTable :=
  if vserial then
    match vmid with
    | 0 => setVirqmap 37 37 map
    | 1 => setVirqmap 39 37 map
    | 2 => setVirqmap 40 37 map
    | _ => map
  else map

/-- The map that `vcpu_init` leaves, where `vserial` is `CONFIG_VSERIAL`. -/
def initMap (vserial : Bool) (vmid : VmId) : Fin 1024 → VirqTable :=
  if vserial then
    match vmid with
    | 0 => setVirqmap 37 37 createMap
    | 1 => setVirqmap 39 37 createMap
    | 2 => setVirqmap 40 37 createMap
    | _ => createMap
  else createMap

def Vcpu.irqEnabled (v : Vcpu) (i : Fin 1024) : Bool := (v.map i).enabled = guestIrqEnable

/-- The physical interrupt that a virtual one is mapped to: itself if it has none. -/
def Vcpu.pirqOf (v : Vcpu) (i : Fin 1024) : U32 :=
  if (v.map i).pirq = pirqInvalid then BitVec.ofNat 32 i else (v.map i).pirq

theorem mapIndex_ofNat (i : Fin 1024) : mapIndex (BitVec.ofNat 32 i) = some i := by
  have htoNat : (BitVec.ofNat 32 i.val).toNat = i.val := by
    rw [BitVec.toNat_ofNat]
    exact Nat.mod_eq_of_lt (i.isLt.trans (by decide))
  have hlt : (BitVec.ofNat 32 i.val).toNat < 1024 := by
    rw [htoNat]
    exact i.isLt
  rw [mapIndex, dif_pos hlt]
  exact congrArg some (Fin.ext htoNat)

theorem mapIndex_eq_some {irq : U32} {i : Fin 1024} (h : mapIndex irq = some i) :
    irq = BitVec.ofNat 32 i := by
  rw [mapIndex] at h
  split at h
  · rw [← Option.some_injective _ h, BitVec.ofNat_toNat, BitVec.setWidth_eq]
  · simp at h

@[simp]
theorem setMap_map (i j : Fin 1024) (entry : VirqTable) (v : Vcpu) :
    (v.setMap i entry).map j = if j = i then entry else v.map j :=
  Function.update_apply ..

theorem pirqInvalid_ne_ofNat (i : Fin 1024) : pirqInvalid ≠ BitVec.ofNat 32 i := by
  intro h
  have hnone : mapIndex pirqInvalid = none := rfl
  rw [h, mapIndex_ofNat] at hnone
  simp at hnone

theorem ofNat_fin_inj {i j : Fin 1024} : BitVec.ofNat 32 i.val = BitVec.ofNat 32 j.val ↔ i = j := by
  refine ⟨fun h => ?_, fun h => by rw [h]⟩
  exact Option.some_injective _ ((mapIndex_ofNat i).symm.trans ((congrArg mapIndex h).trans
    (mapIndex_ofNat j)))

theorem irqEnabled_setMap (i j : Fin 1024) (entry : VirqTable) (v : Vcpu) :
    (v.setMap i entry).irqEnabled j =
      if j = i then decide (entry.enabled = guestIrqEnable) else v.irqEnabled j := by
  rw [Vcpu.irqEnabled, setMap_map]
  by_cases hj : j = i
  · rw [if_pos hj, if_pos hj]
  · rw [if_neg hj, if_neg hj, Vcpu.irqEnabled]

/-- The map names no physical interrupt that it has no entry for. -/
def Vcpu.MapOk (v : Vcpu) : Prop := ∀ i, ∃ p, mapIndex (v.pirqOf i) = some p

theorem Vcpu.MapOk.congr {v v' : Vcpu} (h : v.MapOk) (hpirq : ∀ i, v'.pirqOf i = v.pirqOf i) :
    v'.MapOk := fun i => by
  rw [hpirq]
  exact h i

theorem Vcpu.MapOk.pirqOf_ne_invalid {v : Vcpu} (h : v.MapOk) (i : Fin 1024) :
    v.pirqOf i ≠ pirqInvalid := by
  obtain ⟨p, hp⟩ := h i
  rw [mapIndex_eq_some hp]
  exact (pirqInvalid_ne_ofNat p).symm

/-- Entry `j` serves virtual interrupt `x`, or the physical interrupt that it is mapped to. -/
def Vcpu.Serves (v : Vcpu) (x j : Fin 1024) : Prop := j = x ∨ BitVec.ofNat 32 j = v.pirqOf x

instance (v : Vcpu) (x j : Fin 1024) : Decidable (v.Serves x j) :=
  inferInstanceAs (Decidable (_ ∨ _))

/-- The last of the virtual interrupts `xs` that is mapped to physical interrupt `p`. -/
def Vcpu.lastMappedTo (v : Vcpu) (xs : List (Fin 1024)) (p : Fin 1024) : Option (Fin 1024) :=
  xs.reverse.find? fun x => v.pirqOf x = BitVec.ofNat 32 p

/-- From `v` to `v'` the entries that serve the virtual interrupts `xs` have been enabled, with the
mappings of the interrupts entered in both directions, or they have been disabled. -/
structure Vcpu.Switched (e : Bool) (xs : List (Fin 1024)) (v v' : Vcpu) : Prop where
  pirq : ∀ j, (v'.map j).pirq = if e = true ∧ j ∈ xs then v.pirqOf j else (v.map j).pirq
  virq : ∀ j, (v'.map j).virq =
    if e then ((v.lastMappedTo xs j).map fun x => BitVec.ofNat 32 x.val).getD (v.map j).virq
    else (v.map j).virq
  enabled : ∀ j, v'.irqEnabled j = if ∃ x ∈ xs, v.Serves x j then e else v.irqEnabled j

theorem Vcpu.Switched.nil (e : Bool) (v : Vcpu) : v.Switched e [] v :=
  ⟨fun j => by simp, fun j => by simp [lastMappedTo], fun j => by simp⟩

/-- Interrupts that are mapped to something have not been mapped to anything else. -/
theorem Vcpu.Switched.pirqOf_of_ne {e : Bool} {xs : List (Fin 1024)} {v v' : Vcpu}
    (h : v.Switched e xs v') (hxs : ∀ x ∈ xs, v.pirqOf x ≠ pirqInvalid) (j : Fin 1024) :
    v'.pirqOf j = v.pirqOf j := by
  rw [Vcpu.pirqOf, h.pirq]
  by_cases hj : e = true ∧ j ∈ xs
  · rw [if_pos hj, if_neg (hxs j hj.2)]
  · rw [if_neg hj, Vcpu.pirqOf]

theorem Vcpu.Switched.pirqOf {e : Bool} {xs : List (Fin 1024)} {v v' : Vcpu}
    (h : v.Switched e xs v') (hv : v.MapOk) (j : Fin 1024) : v'.pirqOf j = v.pirqOf j :=
  h.pirqOf_of_ne (fun x _ => hv.pirqOf_ne_invalid x) j

theorem Vcpu.Switched.append {e : Bool} {xs ys : List (Fin 1024)} {v v' v'' : Vcpu} (hv : v.MapOk)
    (h : v.Switched e xs v') (h' : v'.Switched e ys v'') : v.Switched e (xs ++ ys) v'' := by
  have hpirqOf := h.pirqOf hv
  refine ⟨fun j => ?_, fun j => ?_, fun j => ?_⟩
  · rw [h'.pirq, h.pirq, hpirqOf]
    by_cases hys : e = true ∧ j ∈ ys
    · rw [if_pos hys, if_pos ⟨hys.1, List.mem_append_right _ hys.2⟩]
    · rw [if_neg hys]
      simp only [List.mem_append, and_or_left, or_iff_left hys]
  · rw [h'.virq, h.virq]
    cases e with
    | false => rfl
    | true =>
        simp only [if_true, lastMappedTo, hpirqOf, List.reverse_append, List.find?_append]
        cases ys.reverse.find? fun x => v.pirqOf x = BitVec.ofNat 32 j <;> rfl
  · have hserves : ∀ y, v'.Serves y j ↔ v.Serves y j := fun y => by
      rw [Serves, Serves, hpirqOf]
    rw [h'.enabled, h.enabled]
    simp only [hserves, List.mem_append, or_and_right, exists_or]
    by_cases hys : ∃ y ∈ ys, v.Serves y j
    · rw [if_pos hys, if_pos (.inr hys)]
    · simp only [if_neg hys, or_iff_left hys]

/-- Two assignments to the entries of a virtual interrupt and of its physical one. -/
theorem enabled_setMap_setMap {e : Bool} {v : Vcpu} {x p : Fin 1024}
    (hp : mapIndex (v.pirqOf x) = some p) {entry entry' : VirqTable}
    (henabled : decide (entry.enabled = guestIrqEnable) = e)
    (henabled' : decide (entry'.enabled = guestIrqEnable) = e) (j : Fin 1024) :
    ((v.setMap x entry).setMap p entry').irqEnabled j =
      if ∃ y ∈ [x], v.Serves y j then e else v.irqEnabled j := by
  have hserves : v.Serves x j ↔ j = x ∨ j = p := by
    rw [Vcpu.Serves, mapIndex_eq_some hp, ofNat_fin_inj]
  rw [irqEnabled_setMap, irqEnabled_setMap, henabled, henabled']
  simp only [List.mem_singleton, exists_eq_left, hserves]
  by_cases hjp : j = p
  · rw [if_pos hjp, if_pos (.inr hjp)]
  · simp only [if_neg hjp, or_iff_left hjp]

theorem switched_enable {v : Vcpu} {x p : Fin 1024} (hp : mapIndex (v.pirqOf x) = some p)
    {v' : Vcpu} (hv' : v' = v.setMap x
      { v.map x with pirq := v.pirqOf x, enabled := guestIrqEnable }) :
    v.Switched true [x] (v'.setMap p
      { v'.map p with virq := BitVec.ofNat 32 x, enabled := guestIrqEnable }) := by
  refine ⟨fun j => ?_, fun j => ?_, fun j => ?_⟩
  · have hpirq : (v'.map j).pirq = if j = x then v.pirqOf j else (v.map j).pirq := by
      rw [hv', setMap_map]
      by_cases hx : j = x
      · rw [if_pos hx, if_pos hx, hx]
      · rw [if_neg hx, if_neg hx]
    simp only [true_and, List.mem_singleton, ← hpirq, setMap_map]
    by_cases hj : j = p
    · rw [if_pos hj, hj]
    · rw [if_neg hj]
  · have hlast : v.lastMappedTo [x] j = if j = p then some x else none := by
      rw [Vcpu.lastMappedTo, List.reverse_singleton, List.find?_singleton, mapIndex_eq_some hp]
      simp only [ofNat_fin_inj, decide_eq_true_eq, eq_comm (a := j)]
    have hvirq : (v'.map j).virq = (v.map j).virq := by
      rw [hv', setMap_map]
      by_cases hx : j = x
      · rw [if_pos hx, hx]
      · rw [if_neg hx]
    rw [hlast, setMap_map]
    by_cases hj : j = p
    · rw [if_pos hj, if_pos hj]
      rfl
    · rw [if_neg hj, if_neg hj, hvirq]
      rfl
  · rw [hv']
    exact enabled_setMap_setMap hp (decide_eq_true rfl) (decide_eq_true rfl) j

theorem switched_disable {v : Vcpu} {x p : Fin 1024} (hp : mapIndex (v.pirqOf x) = some p)
    {v' : Vcpu} (hv' : v' = v.setMap x { v.map x with enabled := guestIrqDisable }) :
    v.Switched false [x] (v'.setMap p { v'.map p with enabled := guestIrqDisable }) := by
  have hpirq : ∀ j, (v'.map j).pirq = (v.map j).pirq ∧ (v'.map j).virq = (v.map j).virq := by
    intro j
    rw [hv', setMap_map]
    by_cases hx : j = x
    · rw [if_pos hx, hx]
      exact ⟨rfl, rfl⟩
    · rw [if_neg hx]
      exact ⟨rfl, rfl⟩
  have hkeep : ∀ j, ((v'.setMap p { v'.map p with enabled := guestIrqDisable }).map j).pirq =
      (v.map j).pirq ∧ ((v'.setMap p { v'.map p with enabled := guestIrqDisable }).map j).virq =
      (v.map j).virq := by
    intro j
    rw [setMap_map]
    by_cases hj : j = p
    · rw [if_pos hj, hj]
      exact hpirq p
    · rw [if_neg hj]
      exact hpirq j
  refine ⟨fun j => ?_, fun j => ?_, fun j => ?_⟩
  · rw [(hkeep j).1, if_neg fun h => Bool.noConfusion h.1]
  · rw [(hkeep j).2]
    rfl
  · have hdisable : decide (guestIrqDisable = guestIrqEnable) = false := rfl
    rw [hv']
    exact enabled_setMap_setMap hp hdisable hdisable j

/-- Entries that name no physical interrupt but those of the table. -/
theorem mapOk_of_forall {v : Vcpu}
    (h : ∀ i, (v.map i).pirq = pirqInvalid ∨ ∃ p, mapIndex (v.map i).pirq = some p) : v.MapOk := by
  intro i
  rw [Vcpu.pirqOf]
  by_cases hinvalid : (v.map i).pirq = pirqInvalid
  · rw [if_pos hinvalid]
    exact ⟨i, mapIndex_ofNat i⟩
  · rw [if_neg hinvalid]
    exact (h i).resolve_left hinvalid

theorem setVirqmap_pirq (p x i : Fin 1024) (map : Fin 1024 → VirqTable) :
    (setVirqmap p x map i).pirq = if i = x then BitVec.ofNat 32 p else (map i).pirq := by
  rw [setVirqmap]
  dsimp only
  by_cases hx : i = x
  · rw [hx, Function.update_self, if_pos rfl]
  · rw [Function.update_of_ne hx, if_neg hx]
    by_cases hp : i = p
    · rw [hp, Function.update_self]
    · rw [Function.update_of_ne hp]

theorem setVirqmap_enabled (p x i : Fin 1024) (map : Fin 1024 → VirqTable) :
    (setVirqmap p x map i).enabled = (map i).enabled := by
  rw [setVirqmap]
  dsimp only
  by_cases hx : i = x
  · rw [hx, Function.update_self]
    by_cases hp : x = p
    · rw [hp, Function.update_self]
    · rw [Function.update_of_ne hp]
  · rw [Function.update_of_ne hx]
    by_cases hp : i = p
    · rw [hp, Function.update_self]
    · rw [Function.update_of_ne hp]

/-- A new virtual processor has all interrupts disabled, and maps none to an interrupt that is not
in the table. -/
theorem initMap_ok (vserial : Bool) (vmid : VmId) (i : Fin 1024) :
    (initMap vserial vmid i).enabled = guestIrqDisable ∧
      ((initMap vserial vmid i).pirq = pirqInvalid ∨
        ∃ p, mapIndex (initMap vserial vmid i).pirq = some p) := by
  have hset : ∀ p x : Fin 1024, (setVirqmap p x createMap i).enabled = guestIrqDisable ∧
      ((setVirqmap p x createMap i).pirq = pirqInvalid ∨
        ∃ q, mapIndex (setVirqmap p x createMap i).pirq = some q) := by
    intro p x
    refine ⟨setVirqmap_enabled p x i createMap, ?_⟩
    rw [setVirqmap_pirq]
    by_cases hx : i = x
    · rw [if_pos hx]
      exact .inr ⟨p, mapIndex_ofNat p⟩
    · rw [if_neg hx]
      exact .inl rfl
  have hcreate : (createMap i).enabled = guestIrqDisable ∧
      ((createMap i).pirq = pirqInvalid ∨ ∃ q, mapIndex (createMap i).pirq = some q) :=
    ⟨rfl, .inl rfl⟩
  unfold initMap
  split
  · split
    · exact hset 37 37
    · exact hset 39 37
    · exact hset 40 37
    · exact hcreate
  · exact hcreate

/-! ## The serial line -/

/-- The physical and the virtual interrupt of the serial line, which `vcpu_init` maps to one
another. -/
def serialMap (vserial : Bool) (vmid : VmId) : Option (Fin 1024 × Fin 1024) :=
  if vserial then
    match vmid with
    | 0 => some (37, 37)
    | 1 => some (39, 37)
    | 2 => some (40, 37)
    | _ => none
  else none

/-- The physical interrupt that a virtual one stands for in a new virtual processor. -/
def physOf (vserial : Bool) (vmid : VmId) (x : Fin 1024) : Fin 1024 :=
  match serialMap vserial vmid with
  | none => x
  | some (p, y) => if x = y then p else x

theorem setVirqmap_virq (p x i : Fin 1024) (map : Fin 1024 → VirqTable) :
    (setVirqmap p x map i).virq = if i = p then BitVec.ofNat 32 x else (map i).virq := by
  rw [setVirqmap]
  dsimp only
  by_cases hx : i = x
  · rw [hx, Function.update_self]
    by_cases hp : x = p
    · rw [hp, Function.update_self, if_pos rfl]
    · rw [Function.update_of_ne hp, if_neg hp]
  · rw [Function.update_of_ne hx]
    by_cases hp : i = p
    · rw [hp, Function.update_self, if_pos rfl]
    · rw [Function.update_of_ne hp, if_neg hp]

theorem initMap_eq (vserial : Bool) (vmid : VmId) :
    initMap vserial vmid =
      match serialMap vserial vmid with
      | none => createMap
      | some (p, x) => setVirqmap p x createMap := by
  unfold initMap serialMap
  split
  · split <;> rfl
  · rfl

theorem initMap_pirq (vserial : Bool) (vmid : VmId) (x : Fin 1024) :
    (initMap vserial vmid x).pirq =
      match serialMap vserial vmid with
      | none => pirqInvalid
      | some (p, y) => if x = y then BitVec.ofNat 32 p else pirqInvalid := by
  rw [initMap_eq]
  cases serialMap vserial vmid with
  | none => rfl
  | some pair => exact setVirqmap_pirq pair.1 pair.2 x createMap

theorem initMap_virq (vserial : Bool) (vmid : VmId) (p : Fin 1024) :
    (initMap vserial vmid p).virq =
      match serialMap vserial vmid with
      | none => virqInvalid
      | some (q, x) => if p = q then BitVec.ofNat 32 x else virqInvalid := by
  rw [initMap_eq]
  cases serialMap vserial vmid with
  | none => rfl
  | some pair => exact setVirqmap_virq pair.1 pair.2 p createMap

/-- A virtual processor with the map of a new one stands for physical interrupts as `physOf`
says. -/
theorem pirqOf_initMap {vserial : Bool} {vmid : VmId} {v : Vcpu}
    (h : v.map = initMap vserial vmid) (x : Fin 1024) :
    v.pirqOf x = BitVec.ofNat 32 (physOf vserial vmid x) := by
  rw [Vcpu.pirqOf, h, initMap_pirq, physOf]
  cases serialMap vserial vmid with
  | none => rw [if_pos rfl]
  | some pair =>
      dsimp only
      by_cases hx : x = pair.2
      · simp only [if_pos hx, if_neg (pirqInvalid_ne_ofNat pair.1).symm]
      · simp only [if_neg hx, if_true]

end KHypervisor
