import KHypervisor.Arch.Traps
import KHypervisor.Lib.Lists
import Mathlib.Data.List.Pairwise

/-!
# The dispatch of device accesses

A data abort goes to the module whose window the faulting address is in. The modules are registered
by the drivers, one after the other; a virtual machine has an instance of each, in the order of
registration, and `vdev_handler` goes through the instances of the current one. Which module is
called, on whose instance, with which offset is recorded. The end of a window is computed in 32
bits: the last window of the address space ends at zero.
-/

namespace KHypervisor

open Lists Registers

/-- A pointer to a `struct vdev_module`. -/
abbrev ModuleRef := ℕ

/-- The fields of `struct vdev_module` that a dispatch uses. The functions get the instance's
private data and whatever else there is on the board. -/
structure MmioModule (P G : Type) where
  base : U32
  size : U32
  read : U32 → P → G → U32 × P × G
  write : U32 → U32 → P → G → P × G

structure VdevCall where
  vmid : VmId
  mod : ModuleRef
  isWrite : Bool
  offset : U32
deriving DecidableEq

/-- The current machine, the private data of all instances, the rest of the board, and the calls so
far. -/
structure Devices (P G : Type) where
  currentVm : VmId
  pdata : VmId → ModuleRef → P
  board : G
  calls : List VdevCall

variable {P G : Type}

namespace Devices

def called (call : VdevCall) (r : P × G) (d : Devices P G) : Devices P G :=
  { d with
    pdata := Function.update d.pdata call.vmid (Function.update (d.pdata call.vmid) call.mod r.1)
    board := r.2
    calls := d.calls ++ [call] }

end Devices

namespace MmioModule

/-- `vdev_register`. -/
def register (vdevList : List ModuleRef) (m : ModuleRef) : List ModuleRef := vdevList ++ [m]

/-- `vdev_init`, where the drivers register their modules in this order. -/
def init (order : List ModuleRef) : List ModuleRef := order.foldl register []

/-- The instance of module `m` that machine `vm` has. -/
def inst (modules : ModuleRef → MmioModule P G) (vm : VmId) (m : ModuleRef) :
    VdevInstance (Devices P G) where
  base := (modules m).base
  size := (modules m).size
  read offset d :=
    let r := (modules m).read offset (d.pdata vm m) d.board
    (r.1, d.called ⟨vm, m, false, offset⟩ r.2)
  write offset x d :=
    d.called ⟨vm, m, true, offset⟩ ((modules m).write offset x (d.pdata vm m) d.board)

/-- `vdev_create`: the instances of a machine. -/
def create (modules : ModuleRef → MmioModule P G) (vdevList : List ModuleRef) (vm : VmId) :
    List (VdevInstance (Devices P G)) :=
  vdevList.foldl (fun vdevs m => vdevs ++ [inst modules vm m]) []

/-- `vdev_handler`, which begins with `get_current_vm`. -/
def handle (modules : ModuleRef → MmioModule P G) (order : List ModuleRef) (iss : U32)
    (s : TrapState (Devices P G)) : Option (TrapState (Devices P G)) :=
  vdevHandler (create modules (init order) s.dev.currentVm) iss s

/-! ## What a dispatch is to do -/

def Within (m : MmioModule P G) (ipa : U32) : Prop :=
  m.base.toNat ≤ ipa.toNat ∧ ipa.toNat < m.base.toNat + m.size.toNat

/-- The window of the module ends where the address space does. -/
def Last (m : MmioModule P G) : Prop := m.base.toNat + m.size.toNat = 2 ^ 32

instance (m : MmioModule P G) (ipa : U32) : Decidable (m.Within ipa) :=
  inferInstanceAs (Decidable (_ ∧ _))

instance (m : MmioModule P G) : Decidable m.Last :=
  inferInstanceAs (Decidable (_ = _))

def Apart (modules : ModuleRef → MmioModule P G) (m k : ModuleRef) : Prop :=
  ∀ ipa, ¬ ((modules m).Within ipa ∧ (modules k).Within ipa)

/-- The windows of the registered modules are not empty, inside the address space, and apart. -/
structure Windows (modules : ModuleRef → MmioModule P G) (order : List ModuleRef) : Prop where
  pos : ∀ m ∈ order, 0 < (modules m).size.toNat
  le : ∀ m ∈ order, (modules m).base.toNat + (modules m).size.toNat ≤ 2 ^ 32
  apart : order.Pairwise (Apart modules)

/-- What the processor reports of an access to the address. -/
structure Faulted (hw : Registers) (ipa : U32) : Prop where
  hpfar : hw.readCp32 .hpfar = ipa >>> 12 <<< 4
  hdfar : hw.readCp32 .hdfar &&& 0xFFF = ipa &&& 0xFFF

/-- Module `m` has been called once, on the instance of the current machine with the offset, and
nothing has changed but by that call and, for a read, the register of the transfer. -/
structure Delivered (modules : ModuleRef → MmioModule P G) (m : ModuleRef) (iss offset : U32)
    (s t : TrapState (Devices P G)) : Prop where
  inside : offset.toNat < (modules m).size.toNat
  calls : t.dev.calls = s.dev.calls ++ [⟨s.dev.currentVm, m, decide (wnr iss ≠ 0), offset⟩]
  currentVm : t.dev.currentVm = s.dev.currentVm
  others : ∀ v k, (v, k) ≠ (s.dev.currentVm, m) → t.dev.pdata v k = s.dev.pdata v k
  hw : t.hw = s.hw
  vtimer : t.vtimer = s.vtimer
  write : wnr iss ≠ 0 → t.regs = s.regs ∧ ∃ x, s.regs.getGpr (srt iss) = some x ∧
    (t.dev.pdata s.dev.currentVm m, t.dev.board) =
      (modules m).write offset x (s.dev.pdata s.dev.currentVm m) s.dev.board
  read : wnr iss = 0 → SameBut [srt iss] s.regs t.regs ∧ ∃ x, t.regs.getGpr (srt iss) = some x ∧
    (x, t.dev.pdata s.dev.currentVm m, t.dev.board) =
      (modules m).read offset (s.dev.pdata s.dev.currentVm m) s.dev.board

/-- The access goes to the module whose window the address is in, if there is one; otherwise nothing
happens. The order of registration does not matter. -/
structure Dispatched (modules : ModuleRef → MmioModule P G) (order : List ModuleRef)
    (iss ipa : U32) (s t : TrapState (Devices P G)) : Prop where
  handled : handle modules order iss s = some t
  delivered : ∀ m ∈ order, (modules m).Within ipa →
    ∃ offset : U32, offset.toNat = ipa.toNat - (modules m).base.toNat ∧
      Delivered modules m iss offset s t
  ignored : (∀ m ∈ order, ¬ (modules m).Within ipa) → t = s
  anyOrder : ∀ order', order'.Perm order → handle modules order' iss s = some t

/-! ## The search -/

section Search

variable {modules : ModuleRef → MmioModule P G} {order : List ModuleRef} {m : ModuleRef}
  {ipa iss : U32} {s t : TrapState (Devices P G)}

theorem init_eq (order : List ModuleRef) : init order = order := by
  have happend : ∀ ms before : List ModuleRef, ms.foldl register before = before ++ ms := by
    intro ms
    induction ms with
    | nil => intro before; exact (List.append_nil _).symm
    | cons m ms ih => intro before; rw [List.foldl_cons, ih, register, List.append_assoc]; rfl
  exact happend order []

theorem create_eq (modules : ModuleRef → MmioModule P G) (order : List ModuleRef) (vm : VmId) :
    create modules (init order) vm = order.map (inst modules vm) := by
  rw [create, init_eq, List.foldl_append_eq_append, List.nil_append]
  exact List.map_eq_flatMap.symm

theorem fipa_eq (h : Faulted s.hw ipa) : fipa s.hw = ipa := by
  have hpage : (ipa >>> 12 <<< 4 <<< 8).toNat = ipa.toNat / 2 ^ 12 * 2 ^ 12 := by
    rw [← BitVec.shiftLeft_add, BitVec.toNat_shiftLeft, BitVec.toNat_ushiftRight,
      Nat.shiftRight_eq_div_pow, Nat.shiftLeft_eq]
    have hipa := ipa.isLt
    omega
  have hoffset : (ipa &&& 0xFFF).toNat = ipa.toNat % 2 ^ 12 := by
    rw [BitVec.toNat_and]
    exact Nat.and_two_pow_sub_one_eq_mod _ 12
  apply BitVec.eq_of_toNat_eq
  rw [fipa, h.hpfar, h.hdfar, BitVec.toNat_or, hpage, hoffset, ← Nat.shiftLeft_eq,
    ← Nat.shiftLeft_add_eq_or_of_lt (Nat.mod_lt _ (by decide)), Nat.shiftLeft_eq]
  exact Nat.div_add_mod' _ _

/-- Where the search finds a module its window has the address; it does not find one whose window is
the last. -/
theorem covers_iff (hwindows : Windows modules order) (hm : m ∈ order) (vm : VmId) :
    (inst modules vm m).Covers ipa ↔ (modules m).Within ipa ∧ ¬ (modules m).Last := by
  have hpos := hwindows.pos m hm
  have hle := hwindows.le m hm
  have hipa := ipa.isLt
  simp only [VdevInstance.Covers, inst, Within, Last, BitVec.le_def, BitVec.lt_def,
    BitVec.toNat_add]
  omega

theorem Windows.unique (hwindows : Windows modules order) {k : ModuleRef} (hm : m ∈ order)
    (hk : k ∈ order) (hwm : (modules m).Within ipa) (hwk : (modules k).Within ipa) : k = m := by
  have hsymm : Std.Symm (Apart modules) := ⟨fun _ _ h ipa hboth => h ipa hboth.symm⟩
  by_contra hne
  exact hwindows.apart.forall hk hm hne ipa ⟨hwk, hwm⟩

/-- The search finds the module whose window has the address, unless that is the last window. -/
theorem find?_create_eq_some (hwindows : Windows modules order) (hm : m ∈ order)
    (hwithin : (modules m).Within ipa) (hlast : ¬ (modules m).Last) (vm : VmId) :
    (create modules (init order) vm).find? (fun v => v.Covers ipa) = some (inst modules vm m) := by
  rw [create_eq, List.find?_map, find?_eq_some_of_unique hm, Option.map_some]
  · exact decide_eq_true ((covers_iff hwindows hm vm).mpr ⟨hwithin, hlast⟩)
  · intro k hk hcovers
    have hk' := (covers_iff hwindows hk vm).mp (of_decide_eq_true hcovers)
    exact hwindows.unique hm hk hwithin hk'.1

theorem find?_create_eq_none (hwindows : Windows modules order)
    (hnone : ∀ m ∈ order, (modules m).Within ipa → (modules m).Last) (vm : VmId) :
    (create modules (init order) vm).find? (fun v => v.Covers ipa) = none := by
  rw [create_eq, List.find?_map, Option.map_eq_none_iff, List.find?_eq_none]
  intro m hm hcovers
  have hm' := (covers_iff hwindows hm vm).mp (of_decide_eq_true hcovers)
  exact hm'.2 (hnone m hm hm'.1)

end Search

/-! ## The access -/

section Access

variable {modules : ModuleRef → MmioModule P G} {order : List ModuleRef} {m : ModuleRef}
  {ipa iss : U32} {s : TrapState (Devices P G)}

theorem called_pdata (call : VdevCall) (r : P × G) (d : Devices P G) (v : VmId) (k : ModuleRef) :
    (d.called call r).pdata v k =
      if (v, k) = (call.vmid, call.mod) then r.1 else d.pdata v k := by
  have hpdata : (d.called call r).pdata =
    Function.update d.pdata call.vmid (Function.update (d.pdata call.vmid) call.mod r.1) := rfl
  rw [hpdata]
  by_cases hv : v = call.vmid
  · by_cases hk : k = call.mod
    · rw [hv, hk, Function.update_self, Function.update_self, if_pos rfl]
    · have hne : (v, k) ≠ (call.vmid, call.mod) := fun h => hk (Prod.ext_iff.mp h).2
      rw [if_neg hne, hv, Function.update_self, Function.update_of_ne hk]
  · have hne : (v, k) ≠ (call.vmid, call.mod) := fun h => hv (Prod.ext_iff.mp h).1
    rw [if_neg hne, Function.update_of_ne hv]

/-- The state after a write to the instance of the current machine. -/
theorem delivered_write {offset x : U32} (hinside : offset.toNat < (modules m).size.toNat)
    (hwrite : wnr iss ≠ 0) (hx : s.regs.getGpr (srt iss) = some x) :
    Delivered modules m iss offset s
      { s with dev := (inst modules s.dev.currentVm m).write offset x s.dev } := by
  constructor
  · exact hinside
  · rw [decide_eq_true hwrite]
    rfl
  · rfl
  · intro v k hne
    exact (called_pdata _ _ _ v k).trans (if_neg hne)
  · rfl
  · rfl
  · intro _
    exact ⟨rfl, x, hx, Prod.ext ((called_pdata _ _ _ _ _).trans (if_pos rfl)) rfl⟩
  · intro h
    exact absurd h hwrite

theorem delivered_read {offset : U32} (hinside : offset.toNat < (modules m).size.toNat)
    (hread : wnr iss = 0) (hsrt : (srt iss).toNat < 13) :
    ∃ t, { s with dev := ((inst modules s.dev.currentVm m).read offset s.dev).2 }.setGpr (srt iss)
        ((inst modules s.dev.currentVm m).read offset s.dev).1 = some t ∧
      Delivered modules m iss offset s t := by
  obtain ⟨t, ht, hsame⟩ := setGpr_of_lt
    { s with dev := ((inst modules s.dev.currentVm m).read offset s.dev).2 }
    ((inst modules s.dev.currentVm m).read offset s.dev).1 hsrt
  have hget := getGpr_setGpr hsrt ht
  refine ⟨t, ht, ?_⟩
  rw [setGpr_eq_of_lt _ _ hsrt, Option.some.injEq] at ht
  have hdev : t.dev = ((inst modules s.dev.currentVm m).read offset s.dev).2 := by rw [← ht]
  constructor
  · exact hinside
  · rw [hdev, decide_eq_false (not_not.mpr hread)]
    rfl
  · rw [hdev]
    rfl
  · intro v k hne
    rw [hdev]
    exact (called_pdata _ _ _ v k).trans (if_neg hne)
  · rw [← ht]
  · rw [← ht]
  · intro h
    exact absurd hread h
  · intro _
    refine ⟨hsame, _, hget, ?_⟩
    rw [hdev]
    exact Prod.ext rfl (Prod.ext ((called_pdata _ _ _ _ _).trans (if_pos rfl)) rfl)

theorem handle_of_find (hfault : Faulted s.hw ipa) (hsrt : (srt iss).toNat < 13)
    (hfind : (create modules (init order) s.dev.currentVm).find? (fun v => v.Covers ipa) =
      some (inst modules s.dev.currentVm m))
    (hinside : (ipa - (modules m).base).toNat < (modules m).size.toNat) :
    ∃ t, handle modules order iss s = some t ∧
      Delivered modules m iss (ipa - (modules m).base) s t := by
  rw [handle, vdevHandler, fipa_eq hfault, hfind]
  dsimp only
  by_cases hwrite : wnr iss ≠ 0
  · have hget := getGpr_of_lt s.regs hsrt
    rw [if_pos hwrite, hget]
    exact ⟨_, rfl, delivered_write hinside hwrite hget⟩
  · rw [if_neg hwrite]
    exact delivered_read hinside (not_not.mp hwrite) hsrt

theorem handle_of_find_none (hfault : Faulted s.hw ipa)
    (hfind : (create modules (init order) s.dev.currentVm).find? (fun v => v.Covers ipa) = none) :
    handle modules order iss s = some s := by
  rw [handle, vdevHandler, fipa_eq hfault, hfind]

theorem Windows.perm {order' : List ModuleRef} (hwindows : Windows modules order)
    (hperm : order'.Perm order) : Windows modules order' where
  pos m hm := hwindows.pos m (hperm.mem_iff.mp hm)
  le m hm := hwindows.le m (hperm.mem_iff.mp hm)
  apart := (hperm.pairwise_iff fun h ipa hboth => h ipa hboth.symm).mpr hwindows.apart

theorem find?_create_perm {order' : List ModuleRef} (hwindows : Windows modules order)
    (hperm : order'.Perm order) (vm : VmId) :
    (create modules (init order') vm).find? (fun v => v.Covers ipa) =
      (create modules (init order) vm).find? (fun v => v.Covers ipa) := by
  by_cases hex : ∃ m ∈ order, (modules m).Within ipa ∧ ¬ (modules m).Last
  · obtain ⟨m, hm, hwithin, hlast⟩ := hex
    rw [find?_create_eq_some hwindows hm hwithin hlast,
      find?_create_eq_some (hwindows.perm hperm) (hperm.mem_iff.mpr hm) hwithin hlast]
  · have hnone : ∀ m ∈ order, (modules m).Within ipa → (modules m).Last := by
      intro m hm hwithin
      by_contra hlast
      exact hex ⟨m, hm, hwithin, hlast⟩
    rw [find?_create_eq_none hwindows hnone, find?_create_eq_none (hwindows.perm hperm)]
    intro m hm
    exact hnone m (hperm.mem_iff.mp hm)

theorem handle_perm {order' : List ModuleRef} (hwindows : Windows modules order)
    (hfault : Faulted s.hw ipa) (hperm : order'.Perm order) :
    handle modules order' iss s = handle modules order iss s := by
  rw [handle, handle, vdevHandler, vdevHandler, fipa_eq hfault, find?_create_perm hwindows hperm]

/-- An access to the last window of the address space goes nowhere. -/
theorem not_dispatched_of_last (hwindows : Windows modules order) (hfault : Faulted s.hw ipa)
    (hm : m ∈ order) (hwithin : (modules m).Within ipa) (hlast : (modules m).Last)
    {t : TrapState (Devices P G)} : ¬ Dispatched modules order iss ipa s t := by
  intro hdispatched
  have hnone : ∀ k ∈ order, (modules k).Within ipa → (modules k).Last := by
    intro k hk hwk
    rw [hwindows.unique hm hk hwithin hwk]
    exact hlast
  have hsame : handle modules order iss s = some s :=
    handle_of_find_none hfault (find?_create_eq_none hwindows hnone s.dev.currentVm)
  obtain rfl := Option.some.inj (hsame.symm.trans hdispatched.handled)
  obtain ⟨offset, -, hdelivered⟩ := hdispatched.delivered m hm hwithin
  have hlength := congrArg List.length hdelivered.calls
  rw [List.length_append, List.length_singleton] at hlength
  omega

theorem dispatched_of_within (hwindows : Windows modules order) (hfault : Faulted s.hw ipa)
    (hsrt : (srt iss).toNat < 13) (hm : m ∈ order) (hwithin : (modules m).Within ipa)
    (hlast : ¬ (modules m).Last) : ∃ t, Dispatched modules order iss ipa s t := by
  have hoffset : (ipa - (modules m).base).toNat = ipa.toNat - (modules m).base.toNat :=
    BitVec.toNat_sub_of_le hwithin.1
  have hinside : (ipa - (modules m).base).toNat < (modules m).size.toNat := by
    have hstart := hwithin.1
    have hend := hwithin.2
    omega
  obtain ⟨t, ht, hdelivered⟩ := handle_of_find hfault hsrt
    (find?_create_eq_some hwindows hm hwithin hlast s.dev.currentVm) hinside
  refine ⟨t, ht, ?_, ?_, ?_⟩
  · intro k hk hwk
    rw [hwindows.unique hm hk hwithin hwk]
    exact ⟨_, hoffset, hdelivered⟩
  · intro hnone
    exact absurd hwithin (hnone m hm)
  · intro order' hperm
    exact (handle_perm hwindows hfault hperm).trans ht

theorem dispatched_of_not_within (hwindows : Windows modules order) (hfault : Faulted s.hw ipa)
    (hnone : ∀ m ∈ order, ¬ (modules m).Within ipa) : Dispatched modules order iss ipa s s := by
  have hsame : handle modules order iss s = some s := by
    apply handle_of_find_none hfault
    apply find?_create_eq_none hwindows
    intro m hm hwithin
    exact absurd hwithin (hnone m hm)
  refine ⟨hsame, ?_, ?_, ?_⟩
  · intro m hm hwithin
    exact absurd hwithin (hnone m hm)
  · intro _
    rfl
  · intro order' hperm
    exact (handle_perm hwindows hfault hperm).trans hsame

/-- An access is dispatched as it should if and only if its address is not in a window that ends
where the address space does. -/
theorem dispatched_iff (modules : ModuleRef → MmioModule P G) (order : List ModuleRef)
    (ipa iss : U32) (s : TrapState (Devices P G)) (hwindows : Windows modules order)
    (hfault : Faulted s.hw ipa) (hsrt : (srt iss).toNat < 13) :
    (∃ t, Dispatched modules order iss ipa s t) ↔
      ∀ m ∈ order, (modules m).Within ipa → ¬ (modules m).Last := by
  constructor
  · rintro ⟨t, ht⟩ m hm hwithin hlast
    exact not_dispatched_of_last hwindows hfault hm hwithin hlast ht
  · intro hnotLast
    by_cases hex : ∃ m ∈ order, (modules m).Within ipa
    · obtain ⟨m, hm, hwithin⟩ := hex
      exact dispatched_of_within hwindows hfault hsrt hm hwithin (hnotLast m hm hwithin)
    · refine ⟨s, dispatched_of_not_within hwindows hfault ?_⟩
      intro m hm hwithin
      exact hex ⟨m, hm, hwithin⟩

end Access

/-! ## Two devices -/

def wordModule (base size : U32) : MmioModule U32 Unit where
  base := base
  size := size
  read _ word board := (word, word, board)
  write _ x _ board := (x, board)

def twoModules (m : ModuleRef) : MmioModule U32 Unit :=
  if m = 0 then wordModule 0x1C100000 0x1000 else wordModule 0xFFFFF000 0x1000

def faultAt (ipa : U32) : TrapState (Devices U32 Unit) where
  regs := default
  hw := { (default : Registers) with
    cp32 := fun r => if r = .hpfar then ipa >>> 12 <<< 4 else ipa }
  vtimer := default
  dev := ⟨0, fun _ _ => 7, (), []⟩

theorem windows_twoModules : Windows twoModules [0, 1] := by
  refine ⟨by decide, by decide, ?_⟩
  rw [List.pairwise_pair]
  rintro ipa ⟨⟨-, hlow⟩, ⟨hhigh, -⟩⟩
  have hlow : ipa.toNat < 0x1C101000 := hlow
  have hhigh : 0xFFFFF000 ≤ ipa.toNat := hhigh
  omega

theorem faulted_faultAt (ipa : U32) : Faulted (faultAt ipa).hw ipa := ⟨rfl, rfl⟩

theorem dispatched_twoModules :
    ∃ t, Dispatched twoModules [0, 1] 0 0x1C100004 (faultAt 0x1C100004) t :=
  (dispatched_iff twoModules [0, 1] 0x1C100004 0 (faultAt 0x1C100004) windows_twoModules
    (faulted_faultAt _) (by decide)).mpr (by decide)

/-- The access to the device at the end of the address space is lost. -/
theorem last_window_unreachable :
    ¬ ∀ (order : List ModuleRef) (ipa iss : U32), Windows twoModules order →
      (srt iss).toNat < 13 → ∃ t, Dispatched twoModules order iss ipa (faultAt ipa) t := by
  intro h
  obtain ⟨t, ht⟩ := h [0, 1] 0xFFFFF000 0 windows_twoModules (by decide)
  exact not_dispatched_of_last windows_twoModules (faulted_faultAt _)
    (List.mem_cons_of_mem _ List.mem_cons_self) (by decide) (by decide) ht

end MmioModule

end KHypervisor
