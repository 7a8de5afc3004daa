import KHypervisor.Lib.BitScan
import KHypervisor.Lib.Cells
import KHypervisor.Vm.VirqMap

/-!
# The virtual distributor

The registers of `struct vgicd`, and the handlers that a trapped access of a guest to the
distributor ends in. A handler computes the number of an array's cell from the offset that the
guest has accessed; where the array ends before it, the access has no result but a fault.
-/

namespace KHypervisor

open BitScan

/-- `struct vgicd`, with the array sizes of `vdev_gicd.h`. -/
structure Vgicd where
  ctlr : U32
  typer : U32
  iidr : U32
  igroupr0 : Fin 8 → U32
  igroupr : Fin 32 → U32
  isenabler0 : Fin 8 → U32
  isenabler : Fin 32 → U32
  icenabler0 : Fin 8 → U32
  icenabler : Fin 32 → U32
  ispendr0 : Fin 8 → U32
  ispendr : Fin 32 → U32
  icpendr0 : Fin 8 → U32
  icpendr : Fin 32 → U32
  ipriorityr0 : Fin 8 → Fin 8 → U32
  ipriorityr : Fin 256 → U32
  itargetsr0 : Fin 8 → Fin 8 → U32
  itargetsr : Fin 256 → U32
  icfgr0 : Fin 8 → U32
  icfgr : Fin 64 → U32
  cpendsgir0 : Fin 8 → Fin 4 → U32
  spendsgir0 : Fin 8 → Fin 4 → U32

/-- `vgicd_create_instance`, where the physical distributor answers `typer` and `iidr`. -/
def vgicdCreateInstance (typer iidr : U32) : Vgicd where
  ctlr := 0
  typer := typer
  iidr := iidr
  igroupr0 _ := 0
  igroupr _ := 0
  isenabler0 _ := 0
  isenabler _ := 0
  icenabler0 _ := 0
  icenabler _ := 0
  ispendr0 _ := 0
  ispendr _ := 0
  icpendr0 _ := 0
  icpendr _ := 0
  ipriorityr0 _ _ := 0
  ipriorityr _ := 0
  itargetsr0 i _ := 1 <<< i.val ||| 1 <<< (8 + i.val) ||| 1 <<< (16 + i.val) ||| 1 <<< (24 + i.val)
  itargetsr _ := 1 <<< 0 ||| 1 <<< 8 ||| 1 <<< 16 ||| 1 <<< 24
  icfgr0 _ := 0
  icfgr _ := 0
  cpendsgir0 _ _ := 0
  spendsgir0 _ _ := 0

/-- What the handlers read of their surroundings: `ITLinesNumber`, the number of virtual processors
of the machine, the physical processor and the registers of the physical distributor. -/
structure VgicdEnv where
  itLinesNumber : U32
  numVcpus : ℕ
  pcpu : PcpuId
  gicdRead : U32 → U32

/-- The distributor of a virtual machine with the virtual processors of the machine, by their
numbers in it. The writes to the physical distributor and the calls of `virq_inject` for software
generated interrupts, each with its target and the interrupt, are kept in their order. -/
structure VgicdState where
  gicd : Vgicd
  vcpu : ℕ → Vcpu
  phys : List (U32 × U32)
  sgis : List (ℕ × U32)

/-- An array that ends before the cell that is accessed: one of `struct vgicd`, or the interrupt map
of a virtual processor. -/
inductive VgicdFault
  | gicd
  | map
deriving DecidableEq

/-! ## The registers -/

inductive GicdReg
  | ctlr
  | typer
  | iidr
  | igroupr
  | isenabler
  | icenabler
  | ispendr
  | icpendr
  | isactiver
  | icactiver
  | ipriorityr
  | itargetsr
  | icfgr
  | nsacr
  | sgir
  | cpendsgir
  | spendsgir
  | ppispisr
deriving DecidableEq

/-- The offset that a case starts with, `GICD_X(0)` for the register `X`. -/
def GicdReg.first : GicdReg → U32
  | .ctlr => 0x000
  | .typer => 0x004
  | .iidr => 0x008
  | .igroupr => 0x0080
  | .isenabler => 0x0100
  | .icenabler => 0x0180
  | .ispendr => 0x0200
  | .icpendr => 0x0280
  | .isactiver => 0x0300
  | .icactiver => 0x0380
  | .ipriorityr => 0x0400
  | .itargetsr => 0x0800
  | .icfgr => 0x0C00
  | .nsacr => 0x0E00
  | .sgir => 0x0F00
  | .cpendsgir => 0x0F10
  | .spendsgir => 0x0F20
  | .ppispisr => 0xD00

/-- The offset that a case ends with, `GICD_X_LAST` for the register `X`. -/
def GicdReg.last : GicdReg → U32
  | .ctlr => 0x000
  | .typer => 0x004
  | .iidr => 0x008
  | .igroupr => 0x00FC
  | .isenabler => 0x017C
  | .icenabler => 0x01FC
  | .ispendr => 0x027C
  | .icpendr => 0x02FC
  | .isactiver => 0x037C
  | .icactiver => 0x03FC
  | .ipriorityr => 0x07F8
  | .itargetsr => 0x0BF8
  | .icfgr => 0x0CFC
  | .nsacr => 0x0EFC
  | .sgir => 0x0F00
  | .cpendsgir => 0x0F1C
  | .spendsgir => 0x0F2C
  | .ppispisr => 0xDFC

def gicdRegs : List GicdReg :=
  [.ctlr, .typer, .iidr, .igroupr, .isenabler, .icenabler, .ispendr, .icpendr, .isactiver,
    .icactiver, .ipriorityr, .itargetsr, .icfgr, .nsacr, .sgir, .cpendsgir, .spendsgir, .ppispisr]

def gicdDecode (offset : U32) : Option GicdReg :=
  gicdRegs.find? fun r => r.first ≤ offset ∧ offset ≤ r.last

/-- `(offset - GICD_X(0)) >> 2`. -/
def GicdReg.word (r : GicdReg) (offset : U32) : U32 := (offset - r.first) >>> 2

/-- `GICD_X(n)`. -/
def GicdReg.at (r : GicdReg) (n : U32) : U32 := r.first + n * 4

/-! ## The arrays -/

def orFault {α : Type} (fault : VgicdFault) : Option α → Except VgicdFault α
  | none => .error fault
  | some a => .ok a

/-- An array of `struct vgicd` that is read. -/
def index {k : ℕ} {α : Type} (a : Fin k → α) (i : ℕ) : Except VgicdFault α :=
  orFault .gicd (Cells.get a i)

/-- An array of `struct vgicd` that is assigned to. -/
def assign {k : ℕ} {α : Type} (a : Fin k → α) (i : ℕ) (x : α) :
    Except VgicdFault (Fin k → α) :=
  orFault .gicd (Cells.set a i x)

def index₂ {k l : ℕ} {α : Type} (a : Fin k → Fin l → α) (i j : ℕ) : Except VgicdFault α :=
  (index a i).bind fun row => index row j

def assign₂ {k l : ℕ} {α : Type} (a : Fin k → Fin l → α) (i j : ℕ) (x : α) :
    Except VgicdFault (Fin k → Fin l → α) :=
  (index a i).bind fun row => (assign row j x).bind (assign a i)

@[simp]
theorem index_val {k : ℕ} {α : Type} (a : Fin k → α) (i : Fin k) : index a i = .ok (a i) := by
  rw [index, Cells.get_val, orFault]

@[simp]
theorem assign_val {k : ℕ} {α : Type} (a : Fin k → α) (i : Fin k) (x : α) :
    assign a i x = .ok (Function.update a i x) := by
  rw [assign, Cells.set_val, orFault]

/-! ## The handlers -/

/-- The write that `gic_enable_irq` makes to the physical distributor. -/
def gicEnableIrq (irq : U32) : U32 × U32 :=
  (GicdReg.isenabler.at (irq >>> 5), 1 <<< (irq &&& 0x1F).toNat)

/-- A turn of the loop of `set_enable` for the bit `offset`. -/
def setEnableBit (n : U8) (offset : ℕ) (st : Option (Vcpu × List (U32 × U32))) :
    Option (Vcpu × List (U32 × U32)) := do
  let (vcpu, phys) ← st
  let virq := BitVec.ofNat 32 offset + 32 * n.setWidth 32
  let pirq ← virqToPirq vcpu virq
  let pirq := if pirq = pirqInvalid then virq else pirq
  let vcpu ← virqEnable vcpu pirq virq
  let vcpu ← pirqEnable vcpu pirq virq
  some (vcpu, phys ++ [gicEnableIrq pirq])

/-- `set_enable`. There is no result where it leaves the map. -/
def setEnable (currentStatus : U32) (n : U8) (oldStatus : U32) (vcpu : Vcpu)
    (phys : List (U32 × U32)) : Option (Vcpu × List (U32 × U32)) :=
  scan (setEnableBit n) (oldStatus ^^^ currentStatus) (some (vcpu, phys))

/-- A turn of the loop of `set_clear` for the bit `offset`. -/
def setClearBit (n : U8) (offset : ℕ) (st : Option Vcpu) : Option Vcpu := do
  let vcpu ← st
  let virq := BitVec.ofNat 32 offset + 32 * n.setWidth 32
  let pirq ← virqToPirq vcpu virq
  let pirq := if pirq = pirqInvalid then virq else pirq
  let vcpu ← virqDisable vcpu virq
  pirqDisable vcpu pirq

/-- `set_clear`. There is no result where it leaves the map. -/
def setClear (currentStatus : U32) (n : U8) (oldStatus : U32) (vcpu : Vcpu) : Option Vcpu :=
  scan (setClearBit n) (oldStatus ^^^ currentStatus) (some vcpu)

def VgicdState.setGicd (gicd : Vgicd) (σ : VgicdState) : VgicdState := { σ with gicd := gicd }

/-- `virq_inject(vm->vcpu[target], id, id, SW_IRQ)`. -/
def VgicdState.injectSgi (target : ℕ) (id : U32) (σ : VgicdState) : VgicdState :=
  { σ with sgis := σ.sgis ++ [(target, id)] }

/-- `GICD_WRITE`. -/
def VgicdState.gicdWrite (offset value : U32) (σ : VgicdState) : VgicdState :=
  { σ with phys := σ.phys ++ [(offset, value)] }

/-- `set_enable` for the virtual processor that has written. -/
def VgicdState.setEnable (vcpuid : ℕ) (currentStatus n oldStatus : U32) (σ : VgicdState) :
    Except VgicdFault VgicdState :=
  (orFault .map (KHypervisor.setEnable currentStatus (n.setWidth 8) oldStatus (σ.vcpu vcpuid)
    σ.phys)).map fun r => { σ with vcpu := Function.update σ.vcpu vcpuid r.1, phys := r.2 }

/-- `set_clear` for the virtual processor that has written. -/
def VgicdState.setClear (vcpuid : ℕ) (currentStatus n oldStatus : U32) (σ : VgicdState) :
    Except VgicdFault VgicdState :=
  (orFault .map (KHypervisor.setClear currentStatus (n.setWidth 8) oldStatus (σ.vcpu vcpuid))).map
    fun vcpu => { σ with vcpu := Function.update σ.vcpu vcpuid vcpu }

/-- `handler_SGIR`. -/
def handlerSgir (env : VgicdEnv) (vcpuid : ℕ) (value : U32) (σ : VgicdState) : VgicdState :=
  let id := value.extractLsb' 0 4 |>.setWidth 32
  let cpuTargetList := value.extractLsb' 16 8 |>.setWidth 32
  match (value.extractLsb' 24 2).toNat with
  | 0 =>
      scan (fun target σ => if target < env.numVcpus then σ.injectSgi target id else σ)
        (cpuTargetList : U32) σ
  | 1 =>
      (List.range env.numVcpus).foldl
        (fun σ cpuid => if cpuid = env.pcpu then σ else σ.injectSgi cpuid id) σ
  | 2 => σ.injectSgi vcpuid id
  | _ => σ

/-- `vgicd_write_handler`. -/
def vgicdWriteHandler (env : VgicdEnv) (vcpuid : ℕ) (offset value : U32) (σ : VgicdState) :
    Except VgicdFault VgicdState :=
  let gicd := σ.gicd
  match gicdDecode offset with
  | some .ctlr => .ok (σ.setGicd { gicd with ctlr := value })
  | some .igroupr =>
      let n := GicdReg.igroupr.word offset
      if n = 0 then do
        let igroupr0 ← assign gicd.igroupr0 vcpuid value
        return σ.setGicd { gicd with igroupr0 := igroupr0 }
      else if 0 < n ∧ n < env.itLinesNumber + 1 then do
        let igroupr ← assign gicd.igroupr n.toNat value
        return σ.setGicd { gicd with igroupr := igroupr }
      else .ok σ
  | some .isenabler =>
      let n := GicdReg.isenabler.word offset
      if n = 0 then do
        let oldStatus ← index gicd.isenabler0 vcpuid
        let isenabler0 ← assign gicd.isenabler0 vcpuid (oldStatus ||| value)
        (σ.setGicd { gicd with isenabler0 := isenabler0 }).setEnable vcpuid (oldStatus ||| value) n
          oldStatus
      else do
        let oldStatus ← index gicd.isenabler n.toNat
        let isenabler ← assign gicd.isenabler n.toNat (oldStatus ||| value)
        (σ.setGicd { gicd with isenabler := isenabler }).setEnable vcpuid (oldStatus ||| value) n
          oldStatus
  | some .icenabler =>
      let n := GicdReg.icenabler.word offset
      if n = 0 then do
        let oldStatus ← index gicd.icenabler0 vcpuid
        let icenabler0 ← assign gicd.icenabler0 vcpuid (oldStatus ||| value)
        (σ.setGicd { gicd with icenabler0 := icenabler0 }).setClear vcpuid (oldStatus ||| value) n
          oldStatus
      else do
        let oldStatus ← index gicd.icenabler n.toNat
        let icenabler ← assign gicd.icenabler n.toNat (oldStatus ||| value)
        (σ.setGicd { gicd with icenabler := icenabler }).setClear vcpuid (oldStatus ||| value) n
          oldStatus
  | some .ispendr =>
      let n := GicdReg.ispendr.word offset
      if n = 0 then do
        let old ← index gicd.ispendr0 vcpuid
        let ispendr0 ← assign gicd.ispendr0 vcpuid (old ||| value)
        return σ.setGicd { gicd with ispendr0 := ispendr0 }
      else do
        let old ← index gicd.ispendr n.toNat
        let ispendr ← assign gicd.ispendr n.toNat (old ||| value)
        return σ.setGicd { gicd with ispendr := ispendr }
  | some .icpendr =>
      let n := GicdReg.icpendr.word offset
      if n = 0 then do
        let icpendr0 ← assign gicd.icpendr0 vcpuid (~~~value)
        return σ.setGicd { gicd with icpendr0 := icpendr0 }
      else do
        let icpendr ← assign gicd.icpendr n.toNat (~~~value)
        return σ.setGicd { gicd with icpendr := icpendr }
  | some .isactiver =>
      .ok (σ.gicdWrite (GicdReg.isactiver.at (GicdReg.isactiver.word offset)) value)
  | some .icactiver =>
      .ok (σ.gicdWrite (GicdReg.icactiver.at (GicdReg.icactiver.word offset)) value)
  | some .ipriorityr =>
      let n := GicdReg.ipriorityr.word offset
      if n < 8 then do
        let ipriorityr0 ← assign₂ gicd.ipriorityr0 vcpuid n.toNat value
        return σ.setGicd { gicd with ipriorityr0 := ipriorityr0 }
      else do
        let ipriorityr ← assign gicd.ipriorityr n.toNat value
        return σ.setGicd { gicd with ipriorityr := ipriorityr }
  | some .itargetsr =>
      let n := GicdReg.itargetsr.word offset
      if n < 8 then do
        let old ← index₂ gicd.itargetsr0 vcpuid n.toNat
        let itargetsr0 ← assign₂ gicd.itargetsr0 vcpuid n.toNat (old ||| value)
        return σ.setGicd { gicd with itargetsr0 := itargetsr0 }
      else do
        let old ← index gicd.itargetsr n.toNat
        let itargetsr ← assign gicd.itargetsr n.toNat (old ||| value)
        return σ.setGicd { gicd with itargetsr := itargetsr }
  | some .icfgr =>
      let n := offset - GicdReg.icfgr.first
      if n = 1 then do
        let icfgr0 ← assign gicd.icfgr0 vcpuid value
        return σ.setGicd { gicd with icfgr0 := icfgr0 }
      else do
        let icfgr ← assign gicd.icfgr n.toNat value
        return σ.setGicd { gicd with icfgr := icfgr }
  | some .sgir => .ok (handlerSgir env vcpuid value σ)
  | some .cpendsgir => do
      let n := offset - GicdReg.cpendsgir.first
      let cpendsgir0 ← assign₂ gicd.cpendsgir0 vcpuid n.toNat (~~~value)
      return σ.setGicd { gicd with cpendsgir0 := cpendsgir0 }
  | some .spendsgir => do
      let n := offset - GicdReg.spendsgir.first
      let spendsgir0 ← assign₂ gicd.spendsgir0 vcpuid n.toNat (~~~value)
      return σ.setGicd { gicd with spendsgir0 := spendsgir0 }
  | _ => .ok σ

/-- `HVMM_STATUS_BAD_ACCESS`. -/
def hvmmStatusBadAccess : U32 := -4

/-- `vgicd_read_handler`. -/
def vgicdReadHandler (env : VgicdEnv) (vcpuid : ℕ) (offset : U32) (gicd : Vgicd) :
    Except VgicdFault U32 :=
  match gicdDecode offset with
  | some .ctlr => .ok gicd.ctlr
  | some .typer => .ok gicd.typer
  | some .iidr => .ok gicd.iidr
  | some .igroupr =>
      let n := GicdReg.igroupr.word offset
      if n = 0 then index gicd.igroupr0 vcpuid
      else if 0 < n ∧ n < env.itLinesNumber + 1 then index gicd.igroupr n.toNat
      else .ok 0
  | some .isenabler =>
      let n := GicdReg.isenabler.word offset
      if n = 0 then index gicd.isenabler0 vcpuid else index gicd.isenabler n.toNat
  | some .icenabler =>
      let n := GicdReg.icenabler.word offset
      if n = 0 then index gicd.icenabler0 vcpuid else index gicd.icenabler n.toNat
  | some .ispendr =>
      let n := GicdReg.ispendr.word offset
      if n = 0 then index gicd.ispendr0 vcpuid else index gicd.ispendr n.toNat
  | some .icpendr =>
      let n := GicdReg.icpendr.word offset
      if n = 0 then index gicd.icpendr0 vcpuid else index gicd.icpendr n.toNat
  | some .isactiver => .ok (env.gicdRead (GicdReg.isactiver.at (GicdReg.isactiver.word offset)))
  | some .icactiver => .ok (env.gicdRead (GicdReg.icactiver.at (GicdReg.icactiver.word offset)))
  | some .ipriorityr =>
      let n := GicdReg.ipriorityr.word offset
      if n < 8 then index₂ gicd.ipriorityr0 vcpuid n.toNat else index gicd.ipriorityr n.toNat
  | some .itargetsr =>
      let n := GicdReg.itargetsr.word offset
      if n < 8 then index₂ gicd.itargetsr0 vcpuid n.toNat else index gicd.itargetsr n.toNat
  | some .icfgr =>
      let n := offset - GicdReg.icfgr.first
      if n = 1 then index gicd.icfgr0 vcpuid else index gicd.icfgr n.toNat
  | some .nsacr => .ok hvmmStatusBadAccess
  | some .sgir => .ok 0
  | some .cpendsgir =>
      index₂ gicd.cpendsgir0 vcpuid (offset - GicdReg.cpendsgir.first).toNat
  | some .spendsgir =>
      index₂ gicd.spendsgir0 vcpuid (offset - GicdReg.spendsgir.first).toNat
  | _ => .ok 0

/-! ## The loops -/

/-- The virtual interrupt of bit `b` of word `n`. -/
def virqAt (n : Fin 32) (b : ℕ) : Fin 1024 := Fin.ofNat 1024 (32 * n + b)

theorem virqAt_word {n : Fin 32} {b : ℕ} (hb : b < 32) :
    BitVec.ofNat 32 b + 32 * ((BitVec.ofNat 32 n).setWidth 8).setWidth 32 =
      BitVec.ofNat 32 (virqAt n b) := by
  have hn : ∀ n : Fin 32, ((BitVec.ofNat 32 n).setWidth 8).setWidth 32 = BitVec.ofNat 32 n := by
    decide
  have hval : (virqAt n b).val = 32 * n + b := Nat.mod_eq_of_lt (by omega)
  have hmul : (32 : U32) * BitVec.ofNat 32 n = BitVec.ofNat 32 (32 * n) :=
    (BitVec.ofNat_mul_ofNat 32 n.val)
  rw [hn, hval, hmul, BitVec.add_comm, ← BitVec.ofNat_add]

variable {v : Vcpu} {n : Fin 32} {b : ℕ}

theorem virqToPirq_ofNat (v : Vcpu) (x : Fin 1024) :
    virqToPirq v (BitVec.ofNat 32 x) = some (v.map x).pirq := by
  rw [virqToPirq, mapIndex_ofNat, Option.map_some]

/-- A turn goes through exactly if the map has an entry for the physical interrupt. -/
theorem setEnableBit_eq (v : Vcpu) (n : Fin 32) (hb : b < 32) (phys : List (U32 × U32)) :
    setEnableBit ((BitVec.ofNat 32 n).setWidth 8) b (some (v, phys)) =
      (mapIndex (v.pirqOf (virqAt n b))).map fun p =>
        let v' := v.setMap (virqAt n b) { v.map (virqAt n b) with
          pirq := v.pirqOf (virqAt n b), enabled := guestIrqEnable }
        (v'.setMap p
            { v'.map p with virq := BitVec.ofNat 32 (virqAt n b), enabled := guestIrqEnable },
          phys ++ [gicEnableIrq (v.pirqOf (virqAt n b))]) := by
  have hpirq : (if (v.map (virqAt n b)).pirq = pirqInvalid then BitVec.ofNat 32 (virqAt n b)
      else (v.map (virqAt n b)).pirq) = v.pirqOf (virqAt n b) := rfl
  rw [setEnableBit]
  simp only [Option.bind_eq_bind, Option.bind_some, virqAt_word hb, virqToPirq_ofNat, hpirq]
  rw [virqEnable, mapIndex_ofNat, Option.map_some, Option.bind_some, pirqEnable]
  cases mapIndex (v.pirqOf (virqAt n b)) <;> rfl

theorem setEnableBit_some (hv : v.MapOk) (hb : b < 32) (phys : List (U32 × U32)) :
    ∃ v', setEnableBit ((BitVec.ofNat 32 n).setWidth 8) b (some (v, phys)) =
        some (v', phys ++ [gicEnableIrq (v.pirqOf (virqAt n b))]) ∧
      v.Switched true [virqAt n b] v' := by
  obtain ⟨p, hp⟩ := hv (virqAt n b)
  refine ⟨_, ?_, switched_enable hp rfl⟩
  rw [setEnableBit_eq v n hb, hp, Option.map_some]

theorem setClearBit_some (hv : v.MapOk) (hb : b < 32) :
    ∃ v', setClearBit ((BitVec.ofNat 32 n).setWidth 8) b (some v) = some v' ∧
      v.Switched false [virqAt n b] v' := by
  obtain ⟨p, hp⟩ := hv (virqAt n b)
  refine ⟨_, ?_, switched_disable hp rfl⟩
  have hpirq : (if (v.map (virqAt n b)).pirq = pirqInvalid then BitVec.ofNat 32 (virqAt n b)
      else (v.map (virqAt n b)).pirq) = v.pirqOf (virqAt n b) := rfl
  rw [setClearBit]
  simp only [Option.bind_eq_bind, Option.bind_some, virqAt_word hb, virqToPirq_ofNat, hpirq]
  rw [virqDisable, mapIndex_ofNat, Option.map_some, Option.bind_some, pirqDisable, hp,
    Option.map_some]

theorem foldl_setEnableBit (hv : v.MapOk) {bs : List ℕ} (hbs : ∀ b ∈ bs, b < 32)
    (phys : List (U32 × U32)) :
    ∃ v', bs.foldl (fun st b => setEnableBit ((BitVec.ofNat 32 n).setWidth 8) b st)
        (some (v, phys)) =
          some (v', phys ++ bs.map fun b => gicEnableIrq (v.pirqOf (virqAt n b))) ∧
      v.Switched true (bs.map (virqAt n)) v' := by
  induction bs generalizing v phys with
  | nil => exact ⟨v, by simp, .nil true v⟩
  | cons b bs ih =>
      obtain ⟨w, hw, hfirst⟩ := setEnableBit_some (n := n) hv (hbs b List.mem_cons_self) phys
      obtain ⟨v', hv', hrest⟩ := ih (hv.congr (hfirst.pirqOf hv))
        (fun c hc => hbs c (List.mem_cons_of_mem _ hc))
        (phys ++ [gicEnableIrq (v.pirqOf (virqAt n b))])
      refine ⟨v', ?_, hfirst.append hv hrest⟩
      rw [List.foldl_cons, hw, hv', List.map_cons, List.append_assoc, List.singleton_append]
      simp only [hfirst.pirqOf hv]

theorem foldl_setClearBit (hv : v.MapOk) {bs : List ℕ} (hbs : ∀ b ∈ bs, b < 32) :
    ∃ v', bs.foldl (fun st b => setClearBit ((BitVec.ofNat 32 n).setWidth 8) b st) (some v) =
        some v' ∧
      v.Switched false (bs.map (virqAt n)) v' := by
  induction bs generalizing v with
  | nil => exact ⟨v, rfl, .nil false v⟩
  | cons b bs ih =>
      obtain ⟨w, hw, hfirst⟩ := setClearBit_some (n := n) hv (hbs b List.mem_cons_self)
      obtain ⟨v', hv', hrest⟩ := ih (hv.congr (hfirst.pirqOf hv))
        fun c hc => hbs c (List.mem_cons_of_mem _ hc)
      exact ⟨v', by rw [List.foldl_cons, hw, hv'], hfirst.append hv hrest⟩

def deltaBits (oldStatus currentStatus : U32) : List ℕ := bitsBelow (oldStatus ^^^ currentStatus) 32

theorem lt_of_mem_deltaBits {oldStatus currentStatus : U32} {c : ℕ}
    (h : c ∈ deltaBits oldStatus currentStatus) : c < 32 := (mem_bitsBelow.mp h).1

/-- `set_enable` enables the interrupts whose bits the word has gained or lost, in the map and at
the physical distributor. -/
theorem setEnable_some (hv : v.MapOk) (currentStatus oldStatus : U32) (phys : List (U32 × U32)) :
    ∃ v', setEnable currentStatus ((BitVec.ofNat 32 n).setWidth 8) oldStatus v phys =
        some (v', phys ++ (deltaBits oldStatus currentStatus).map fun b =>
          gicEnableIrq (v.pirqOf (virqAt n b))) ∧
      v.Switched true ((deltaBits oldStatus currentStatus).map (virqAt n)) v' := by
  rw [setEnable, scan_eq]
  exact foldl_setEnableBit hv (fun _ => lt_of_mem_deltaBits) phys

/-- `set_clear` disables the interrupts whose bits the word has gained or lost, in the map alone. -/
theorem setClear_some (hv : v.MapOk) (currentStatus oldStatus : U32) :
    ∃ v', setClear currentStatus ((BitVec.ofNat 32 n).setWidth 8) oldStatus v = some v' ∧
      v.Switched false ((deltaBits oldStatus currentStatus).map (virqAt n)) v' := by
  rw [setClear, scan_eq]
  exact foldl_setClearBit hv fun _ => lt_of_mem_deltaBits

end KHypervisor
