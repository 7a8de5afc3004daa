import Mathlib.Data.Fintype.Defs
import KHypervisor.Vdev.Vgicd

/-!
# Virtual devices of a machine

`vdev.c`: the instances that a machine has of the registered modules, and the copy of all their
private states to the instances of another machine. A module that can be copied says how by a
function that gets the two states, the one to copy from and the one to copy to.

Three of the four functions do as they are told; that of `vdev_sp804.c` copies the other way:
`snapshotsDevices_iff`.
-/

namespace KHypervisor

/-! ## Private states -/

/-- All of `struct vgicd`, with the fields that no access reads. -/
structure VgicdData extends Vgicd where
  isactiver0 : Fin 8 → U32
  isactiver : Fin 32 → U32
  icactiver0 : Fin 8 → U32
  icactiver : Fin 32 → U32
  nsacr : Fin 32 → U32
  sgirWord : U32

/-- `struct pl01x`. -/
structure Pl01x where
  uartdr : U32
  uartrsrUartecr : U32
  uartfr : U32
  uartilpr : U32
  uartibrd : U32
  uartfbrd : U32
  uartlcrH : U32
  uartcr : U32
  uartifls : U32
  uartmsc : U32
  uartris : U32
  uartmis : U32
  uarticr : U32
  uartdmacr : U32
  uartperiphid : Fin 4 → U32
  uartcellid : Fin 4 → U32

/-- A structure of `n` fields of type `uint32_t`, as the functions that do not name the fields see
it. -/
abbrev Words (n : ℕ) := Fin n → U32

inductive VdevDriver
  | gicd
  | pl01x
  | sysreg
  | sp804
  | pl180
  | sample
deriving DecidableEq

/-- What `pdata` points to. -/
abbrev VdevDriver.Data : VdevDriver → Type
  | .gicd => VgicdData
  | .pl01x => Pl01x
  | .sysreg => Words 18
  | .sp804 => Words 24
  | .pl180 => Words 28
  | .sample => Words 3

/-! ## Creating a state -/

/-- `vgicd_create_instance` with all the fields of the structure. -/
def vgicdCreateData (typer iidr : U32) : VgicdData where
  toVgicd := vgicdCreateInstance typer iidr
  isactiver0 _ := 0
  isactiver _ := 0
  icactiver0 _ := 0
  icactiver _ := 0
  nsacr _ := 0
  sgirWord := 0

/-- `vsysreg_create_instance`. -/
def vsysregCreateInstance : Words 18 := fun _ => 0

/-- The `create` function of a module, on a block that `malloc` returned, where the physical
distributor answers `typer` and `iidr`. -/
def VdevDriver.create (typer iidr : U32) : (d : VdevDriver) → d.Data → d.Data
  | .gicd, _ => vgicdCreateData typer iidr
  | .sysreg, _ => vsysregCreateInstance
  | .pl01x, block => block
  | .sp804, block => block
  | .pl180, block => block
  | .sample, block => block

/-! ## Copying a state -/

def copyArray {α : Type} {n : ℕ} (src dst : Fin n → α) : Fin n → α :=
  (List.finRange n).foldl (fun a i => Function.update a i (src i)) dst

def copyRows {α : Type} {m n : ℕ} (src dst : Fin m → Fin n → α) : Fin m → Fin n → α :=
  (List.finRange m).foldl (fun a i => Function.update a i (copyArray (src i) (a i))) dst

/-- What `memcpy` leaves in the destination, both blocks being of the size that it copies. -/
def memcpy {n : ℕ} (_dest src : Words n) : Words n := src

/-- `vgicd_copy`, with the state that is copied to. -/
def vgicdCopy (src dst : VgicdData) : VgicdData where
  ctlr := src.ctlr
  typer := src.typer
  iidr := src.iidr
  igroupr0 := copyArray src.igroupr0 dst.igroupr0
  igroupr := copyArray src.igroupr dst.igroupr
  isenabler0 := copyArray src.isenabler0 dst.isenabler0
  isenabler := copyArray src.isenabler dst.isenabler
  icenabler0 := copyArray src.icenabler0 dst.icenabler0
  icenabler := copyArray src.icenabler dst.icenabler
  ispendr0 := copyArray src.ispendr0 dst.ispendr0
  ispendr := copyArray src.ispendr dst.ispendr
  icpendr0 := copyArray src.icpendr0 dst.icpendr0
  icpendr := copyArray src.icpendr dst.icpendr
  isactiver0 := copyArray src.isactiver0 dst.isactiver0
  isactiver := copyArray src.isactiver dst.isactiver
  icactiver0 := copyArray src.icactiver0 dst.icactiver0
  icactiver := copyArray src.icactiver dst.icactiver
  ipriorityr0 := copyRows src.ipriorityr0 dst.ipriorityr0
  ipriorityr := copyArray src.ipriorityr dst.ipriorityr
  itargetsr0 := copyRows src.itargetsr0 dst.itargetsr0
  itargetsr := copyArray src.itargetsr dst.itargetsr
  icfgr0 := copyArray src.icfgr0 dst.icfgr0
  icfgr := copyArray src.icfgr dst.icfgr
  nsacr := copyArray src.nsacr dst.nsacr
  sgirWord := src.sgirWord
  cpendsgir0 := copyRows src.cpendsgir0 dst.cpendsgir0
  spendsgir0 := copyRows src.spendsgir0 dst.spendsgir0

/-- `vuart_copy`, with the state that is copied to. -/
def vuartCopy (src dst : Pl01x) : Pl01x where
  uartdr := src.uartdr
  uartrsrUartecr := src.uartrsrUartecr
  uartfr := src.uartfr
  uartilpr := src.uartilpr
  uartibrd := src.uartibrd
  uartfbrd := src.uartfbrd
  uartlcrH := src.uartlcrH
  uartcr := src.uartcr
  uartifls := src.uartifls
  uartmsc := src.uartmsc
  uartris := src.uartris
  uartmis := src.uartmis
  uarticr := src.uarticr
  uartdmacr := src.uartdmacr
  uartperiphid := copyArray src.uartperiphid dst.uartperiphid
  uartcellid := copyArray src.uartcellid dst.uartcellid

/-- The module has a `copy` function. -/
def VdevDriver.hasCopy : VdevDriver → Bool
  | .gicd | .pl01x | .sysreg | .sp804 => true
  | .pl180 | .sample => false

/-- The `copy` function of a module, if it has one, with both states after it. The arguments are in
the order of the source, which `vtimer_copy` hands to `memcpy` as they are. -/
def VdevDriver.copy : (d : VdevDriver) → d.Data → d.Data → d.Data × d.Data
  | .gicd, src, dst => (src, vgicdCopy src dst)
  | .pl01x, src, dst => (src, vuartCopy src dst)
  | .sysreg, src, dst => (src, memcpy dst src)
  | .sp804, src, dst => (memcpy src dst, dst)
  | .pl180, src, dst => (src, dst)
  | .sample, src, dst => (src, dst)

/-! ## Instances -/

/-- The fields of `struct vdev_module` that instances are found by. -/
structure VdevModule where
  base : U32
  driver : VdevDriver
deriving DecidableEq

/-- `struct vdev_instance`. -/
structure Vdev where
  mod : VdevModule
  pdata : mod.driver.Data
  owner : VmId

/-- `vdev_create`, on the blocks that `malloc` returned. -/
def vdevCreate (typer iidr : U32) (block : (m : VdevModule) → m.driver.Data)
    (vdevList : List VdevModule) (vmid : VmId) : List Vdev :=
  vdevList.foldl (fun vdevs m => vdevs ++ [⟨m, m.driver.create typer iidr (block m), vmid⟩]) []

/-- The call of the copy function of the first instance on the states of both. A copy function that
is given the state of another driver has no result. -/
def Vdev.copyState (src dst : Vdev) : Option (Vdev × Vdev) :=
  if h : dst.mod.driver = src.mod.driver then
    let r := src.mod.driver.copy src.pdata (h ▸ dst.pdata)
    some ({ src with pdata := r.1 }, { dst with pdata := h ▸ r.2 })
  else if src.mod.driver.hasCopy then none
  else some (src, dst)

/-- The inner loop of `vdev_copy` over the instances that are left. -/
def copyToFirst (src : Vdev) : List Vdev → Option (Vdev × List Vdev)
  | [] => some (src, [])
  | dst :: dsts =>
      if src.mod.base = dst.mod.base then
        (src.copyState dst).map fun r => (r.1, r.2 :: dsts)
      else (copyToFirst src dsts).map fun r => (r.1, dst :: r.2)

/-- The outer loop of `vdev_copy` over the instances that are left. -/
def vdevCopy : List Vdev → List Vdev → Option (List Vdev × List Vdev)
  | [], dsts => some ([], dsts)
  | src :: srcs, dsts => do
      let (src, dsts) ← copyToFirst src dsts
      let (srcs, dsts) ← vdevCopy srcs dsts
      some (src :: srcs, dsts)

/-! ## What the copy functions do -/

theorem foldl_update {α : Type} {n : ℕ} {f : (Fin n → α) → Fin n → α} (src : Fin n → α)
    (hf : ∀ a i, f a i = src i) {is : List (Fin n)} (dst : Fin n → α) (j : Fin n) :
    is.foldl (fun a i => Function.update a i (f a i)) dst j = if j ∈ is then src j else dst j := by
  induction is generalizing dst with
  | nil => rfl
  | cons i is ih =>
      rw [List.foldl_cons, ih, hf]
      by_cases hj : j ∈ is
      · rw [if_pos hj, if_pos (List.mem_cons_of_mem _ hj)]
      · by_cases hji : j = i <;> simp [hj, hji]

@[simp]
theorem copyArray_eq {α : Type} {n : ℕ} (src dst : Fin n → α) : copyArray src dst = src := by
  funext j
  rw [copyArray, foldl_update src fun _ _ => rfl]
  simp

@[simp]
theorem copyRows_eq {α : Type} {m n : ℕ} (src dst : Fin m → Fin n → α) :
    copyRows src dst = src := by
  funext j
  rw [copyRows, foldl_update src fun a i => copyArray_eq (src i) (a i)]
  simp

theorem vgicdCopy_eq (src dst : VgicdData) : vgicdCopy src dst = src := by
  simp [vgicdCopy]

theorem vuartCopy_eq (src dst : Pl01x) : vuartCopy src dst = src := by
  simp [vuartCopy]

theorem VdevDriver.copy_eq (d : VdevDriver) (src dst : d.Data) :
    d.copy src dst =
      if d = .sp804 then (dst, dst) else if d.hasCopy then (src, src) else (src, dst) := by
  cases d with
  | gicd => simp [copy, hasCopy, vgicdCopy_eq]
  | pl01x => simp [copy, hasCopy, vuartCopy_eq]
  | sysreg => rfl
  | sp804 => rfl
  | pl180 => rfl
  | sample => rfl

/-! ## Two machines -/

/-- The instances of the modules that belong to a machine, in the states `pdata`. -/
def instances (modules : List VdevModule) (vmid : VmId) (pdata : (m : VdevModule) → m.driver.Data) :
    List Vdev :=
  modules.map fun m => ⟨m, pdata m, vmid⟩

theorem vdevCreate_eq (typer iidr : U32) (block : (m : VdevModule) → m.driver.Data)
    (modules : List VdevModule) (vmid : VmId) :
    vdevCreate typer iidr block modules vmid =
      instances modules vmid fun m => m.driver.create typer iidr (block m) := by
  have happend : ∀ (ms : List VdevModule) (vdevs : List Vdev),
      ms.foldl (fun vdevs m =>
        vdevs ++ [⟨m, m.driver.create typer iidr (block m), vmid⟩]) vdevs =
      vdevs ++ instances ms vmid fun m => m.driver.create typer iidr (block m) := by
    intro ms
    induction ms with
    | nil => intro vdevs; exact (List.append_nil _).symm
    | cons m ms ih => intro vdevs; rw [List.foldl_cons, ih, List.append_assoc]; rfl
  exact happend modules []

/-- Whatever states the instances that `vdev_create` has made come into, they are the instances of
the modules. -/
theorem eq_instances {modules : List VdevModule} (hmodules : modules.Nodup) {vmid : VmId}
    {vdevs : List Vdev} (hmod : vdevs.map Vdev.mod = modules) (howner : ∀ v ∈ vdevs, v.owner = vmid)
    (block : (m : VdevModule) → m.driver.Data) :
    ∃ pdata, vdevs = instances modules vmid pdata := by
  induction vdevs generalizing modules with
  | nil => exact ⟨block, by rw [← hmod]; rfl⟩
  | cons v vdevs ih =>
      obtain ⟨howner, hrest⟩ := List.forall_mem_cons.mp howner
      rw [List.map_cons] at hmod
      subst hmod
      obtain ⟨hnew, hmodules⟩ := List.nodup_cons.mp hmodules
      obtain ⟨pdata, hpdata⟩ := ih hmodules rfl hrest
      refine ⟨Function.update pdata v.mod v.pdata, ?_⟩
      rw [instances, List.map_cons, Function.update_self, ← howner]
      refine congrArg (v :: ·) (hpdata.trans (List.map_congr_left fun m hm => ?_))
      rw [Function.update_of_ne (ne_of_mem_of_not_mem hm hnew), howner]

theorem copyState_same (m : VdevModule) (v w : VmId) (a b : m.driver.Data) :
    (⟨m, a, v⟩ : Vdev).copyState ⟨m, b, w⟩ =
      some (⟨m, (m.driver.copy a b).1, v⟩, ⟨m, (m.driver.copy a b).2, w⟩) := by
  rw [Vdev.copyState, dif_pos rfl]

theorem copyToFirst_append {src : Vdev} {before : List Vdev}
    (hbefore : ∀ v ∈ before, src.mod.base ≠ v.mod.base) (dsts : List Vdev) :
    copyToFirst src (before ++ dsts) =
      (copyToFirst src dsts).map fun r => (r.1, before ++ r.2) := by
  induction before with
  | nil => exact (Option.map_id_apply).symm
  | cons v before ih =>
      obtain ⟨hv, hrest⟩ := List.forall_mem_cons.mp hbefore
      rw [List.cons_append, copyToFirst, if_neg hv, ih hrest, Option.map_map]
      rfl

variable {modules : List VdevModule} {v w : VmId} {a b : (m : VdevModule) → m.driver.Data}

theorem vdevCopy_instances (hbase : (modules.map VdevModule.base).Nodup) (v w : VmId)
    (a b : (m : VdevModule) → m.driver.Data) {before : List Vdev}
    (hbefore : ∀ d ∈ before, ∀ m ∈ modules, m.base ≠ d.mod.base) :
    vdevCopy (instances modules v a) (before ++ instances modules w b) =
      some (instances modules v fun m => (m.driver.copy (a m) (b m)).1,
        before ++ instances modules w fun m => (m.driver.copy (a m) (b m)).2) := by
  induction modules generalizing before with
  | nil => rfl
  | cons m modules ih =>
      obtain ⟨hnew, hrest⟩ := List.nodup_cons.mp hbase
      have hfirst : copyToFirst ⟨m, a m, v⟩ (before ++ instances (m :: modules) w b) =
          some (⟨m, (m.driver.copy (a m) (b m)).1, v⟩,
            before ++ ⟨m, (m.driver.copy (a m) (b m)).2, w⟩ :: instances modules w b) := by
        rw [copyToFirst_append fun d hd => hbefore d hd m List.mem_cons_self, instances,
          List.map_cons, copyToFirst, if_pos rfl, copyState_same]
        rfl
      have hlater : ∀ d ∈ before ++ [⟨m, (m.driver.copy (a m) (b m)).2, w⟩],
          ∀ m' ∈ modules, m'.base ≠ d.mod.base := by
        intro d hd m' hm'
        rcases List.mem_append.mp hd with hd | hd
        · exact hbefore d hd m' (List.mem_cons_of_mem m hm')
        · rw [List.mem_singleton.mp hd]
          exact fun heq => hnew (heq ▸ List.mem_map_of_mem hm')
      have hcopy := ih hrest hlater
      rw [List.append_assoc, List.append_assoc, List.singleton_append, List.singleton_append]
        at hcopy
      rw [instances, List.map_cons, vdevCopy, hfirst]
      simp only [Option.bind_eq_bind, Option.bind_some]
      rw [← instances, hcopy]
      rfl

theorem instances_inj :
    instances modules v a = instances modules v b ↔ ∀ m ∈ modules, a m = b m := by
  rw [instances, instances, List.map_inj_left]
  simp

/-- After `vdev_copy` every instance of machine `w` whose module provides a copy function has the
state of that of machine `v`, whose instances are unchanged. -/
def SnapshotsDevices (modules : List VdevModule) (v w : VmId)
    (a b : (m : VdevModule) → m.driver.Data) : Prop :=
  ∃ a' b', vdevCopy (instances modules v a) (instances modules w b) =
      some (instances modules v a', instances modules w b') ∧
    (∀ m ∈ modules, m.driver.hasCopy → b' m = a m) ∧ ∀ m ∈ modules, a' m = a m

/-- The devices are copied exactly if those of the driver for the SP804 timers are in the same state
to begin with. -/
theorem snapshotsDevices_iff (hbase : (modules.map VdevModule.base).Nodup) (v w : VmId)
    (a b : (m : VdevModule) → m.driver.Data) :
    SnapshotsDevices modules v w a b ↔ ∀ m ∈ modules, m.driver = .sp804 → a m = b m := by
  have hcopy := vdevCopy_instances hbase v w a b
    (show ∀ d ∈ ([] : List Vdev), ∀ m ∈ modules, m.base ≠ d.mod.base by simp)
  rw [List.nil_append, List.nil_append] at hcopy
  constructor
  · rintro ⟨a', b', hab, -, hsame⟩ m hm hsp804
    have heq := (Prod.mk.inj (Option.some.inj (hcopy.symm.trans hab))).1
    have hm' := instances_inj.mp heq m hm
    rw [hsame m hm, VdevDriver.copy_eq, if_pos hsp804] at hm'
    exact hm'.symm
  · intro hsame
    refine ⟨_, _, hcopy, fun m hm hhas => ?_, fun m hm => ?_⟩
    · rw [VdevDriver.copy_eq]
      split
      · rename_i hsp804
        exact (hsame m hm hsp804).symm
      · rfl
    · rw [VdevDriver.copy_eq]
      split
      · rename_i hsp804
        exact (hsame m hm hsp804).symm
      · split <;> rfl

/-- The module of `vdev_sp804.c`. -/
def sp804Vtimer1 : VdevModule := ⟨0x1C110000, .sp804⟩

/-- The module of `vdev_sysreg.c`. -/
def vdevSysreg : VdevModule := ⟨0x1C010000, .sysreg⟩

def filled (x : U32) (m : VdevModule) : m.driver.Data :=
  match m.driver with
  | .gicd => vgicdCreateData x x
  | .pl01x => ⟨x, x, x, x, x, x, x, x, x, x, x, x, x, x, fun _ => x, fun _ => x⟩
  | .sysreg | .sp804 | .pl180 | .sample => fun _ => x

/-- The system registers of two machines, in different states. -/
theorem snapshotsDevices_iff_sysreg :
    SnapshotsDevices [vdevSysreg] 0 1 (filled 1) (filled 0) ↔
      ∀ m ∈ [vdevSysreg], m.driver = .sp804 → filled 1 m = filled 0 m :=
  snapshotsDevices_iff (by decide) 0 1 (filled 1) (filled 0)

/-- The timers of two machines, in different states: what is copied to is kept, and what is copied
from is lost. -/
theorem sp804_copied_backwards :
    ∃ a', vdevCopy (instances [sp804Vtimer1] 0 (filled 1)) (instances [sp804Vtimer1] 1 (filled 0)) =
        some (instances [sp804Vtimer1] 0 a', instances [sp804Vtimer1] 1 (filled 0)) ∧
      a' sp804Vtimer1 = filled 0 sp804Vtimer1 ∧
      ¬ SnapshotsDevices [sp804Vtimer1] 0 1 (filled 1) (filled 0) := by
  refine ⟨filled 0, rfl, rfl, ?_⟩
  rintro ⟨a', b', hcopy, -, hsame⟩
  have hback : vdevCopy (instances [sp804Vtimer1] 0 (filled 1))
      (instances [sp804Vtimer1] 1 (filled 0)) =
      some (instances [sp804Vtimer1] 0 (filled 0), instances [sp804Vtimer1] 1 (filled 0)) := rfl
  have heq := (Prod.mk.inj (Option.some.inj (hback.symm.trans hcopy))).1
  have hstate := instances_inj.mp heq sp804Vtimer1 (List.mem_singleton_self _)
  rw [hsame sp804Vtimer1 (List.mem_singleton_self _)] at hstate
  have hword : (0 : U32) = 1 := congrFun hstate (0 : Fin 24)
  exact absurd hword (by decide)

end KHypervisor
