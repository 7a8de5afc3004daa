import KHypervisor.Lib.Cells
import KHypervisor.Vdev.Vtimer

/-!
# Trapped register transfers

The handlers of the traps that an access of a guest to a virtual device or to a coprocessor register
ends in. The syndrome names the registers of the guest that take part in the transfer by four bits
each. A trap frame has thirteen general registers, and the stack pointer and the link register, by
their numbers, lie behind them: `transfer_law_iff`.
-/

namespace KHypervisor

open Registers

/-- What the handlers read and write: the trap frame, the registers of the processor, the virtual
timer of `current_vcpu`, and what the virtual devices keep. -/
structure TrapState (D : Type) where
  regs : CoreRegs
  hw : Registers
  vtimer : VdevTimer
  dev : D

/-- `struct vdev_instance`, with the fields of its module that `vdev_handler` uses. A device that is
written to reads one register through the pointer that it gets. -/
structure VdevInstance (D : Type) where
  base : U32
  size : U32
  read : U32 → D → U32 × D
  write : U32 → U32 → D → D

/-- The trap frames agree but for some of the general registers. -/
structure SameBut (regs : List U32) (s t : CoreRegs) : Prop where
  cpsr : t.cpsr = s.cpsr
  pc : t.pc = s.pc
  lr : t.lr = s.lr
  gpr : ∀ i : Fin 13, BitVec.ofNat 32 i ∉ regs → t.gpr i = s.gpr i

namespace CoreRegs

/-- `regs->gpr[i]`. -/
def getGpr (i : U32) (regs : CoreRegs) : Option U32 := Cells.get regs.gpr i.toNat

/-- An assignment to `regs->gpr[i]`. -/
def setGpr (i : U32) (x : U32) (regs : CoreRegs) : Option CoreRegs :=
  (Cells.set regs.gpr i.toNat x).map fun gpr => { regs with gpr := gpr }

end CoreRegs

section

variable {D : Type}

def TrapState.setGpr (i : U32) (x : U32) (s : TrapState D) : Option (TrapState D) :=
  (s.regs.setGpr i x).map fun regs => { s with regs := regs }

/-! ## Data aborts -/

/-- `SRT`. -/
def srt (iss : U32) : U32 := (iss &&& 0b1111 <<< 16) >>> 16

/-- `WNR`. -/
def wnr (iss : U32) : U32 := (iss &&& 0b1 <<< 6) >>> 6

/-- The address that `vdev_handler` computes from `HPFAR` and `HDFAR`. -/
def fipa (hw : Registers) : U32 := hw.readCp32 .hpfar <<< 8 ||| (hw.readCp32 .hdfar &&& 0xFFF)

def VdevInstance.Covers (instance' : VdevInstance D) (addr : U32) : Prop :=
  instance'.base ≤ addr ∧ addr < instance'.base + instance'.size

instance (instance' : VdevInstance D) (addr : U32) : Decidable (instance'.Covers addr) :=
  inferInstanceAs (Decidable (_ ∧ _))

/-- `vdev_handler` on the devices of `current_vm`. -/
def vdevHandler (vdevs : List (VdevInstance D)) (iss : U32) (s : TrapState D) :
    Option (TrapState D) :=
  match vdevs.find? fun v => v.Covers (fipa s.hw) with
  | none => some s
  | some v =>
      let offset := fipa s.hw - v.base
      if wnr iss ≠ 0 then do
        let x ← s.regs.getGpr (srt iss)
        some { s with dev := v.write offset x s.dev }
      else
        let r := v.read offset s.dev
        { s with dev := r.2 }.setGpr (srt iss) r.1

/-! ## Accesses of one register -/

/-- `rt` of `cp15.c`. -/
def cp15Rt (iss : U32) : U32 := (iss &&& 0xf <<< 5) >>> 5

/-- `decode_dir`. -/
def decodeDir (iss : U32) : U32 := iss &&& 1

/-- `decode_cp15` of `cp15.c`. -/
def decodeCp15_32 (iss : U32) : U32 :=
  (iss &&& 0xf <<< 10) >>> 10 <<< 12 ||| (iss &&& 0x7 <<< 14) >>> 14 <<< 8 |||
    (iss &&& 0xf <<< 1) >>> 1 <<< 4 ||| (iss &&& 0x7 <<< 17) >>> 17

/-- The registers that `emulate_cp15_32` passes on to the virtual timer. -/
def timerRegs32 : List U32 :=
  [Cp32.cntfrq.code, Cp32.cntkctl.code, Cp32.cntpTval.code, Cp32.cntpCtl.code, Cp32.cntvTval.code,
    Cp32.cntvCtl.code]

/-- `emulate_cp15_32`, with the argument of `tm_set_timer` if the software timer has been set, and
the value that is returned. -/
def emulateCp15_32 (conf : TimerConf) (syscounter : U64) (iss : U32) (s : TrapState D) :
    Option (TrapState D × Option U64 × ℤ) :=
  let rt := cp15Rt iss
  let what := decodeCp15_32 iss
  if what = Cp32.midr.code then
    if decodeDir iss = 0 then do
      let x ← s.regs.getGpr rt
      some ({ s with hw := s.hw.writeCp32 x .midr }, none, 0)
    else do
      let s ← s.setGpr rt (s.hw.readCp32 .midr)
      some (s, none, 0)
  else if what = Cp32.dcisw.code then do
    let x ← s.regs.getGpr rt
    some ({ s with hw := s.hw.writeCp32 x .dccisw }, none, 0)
  else if what = Cp32.dccsw.code then do
    let x ← s.regs.getGpr rt
    some ({ s with hw := s.hw.writeCp32 x .dccsw }, none, 0)
  else if what = Cp32.dccisw.code then do
    let x ← s.regs.getGpr rt
    some ({ s with hw := s.hw.writeCp32 x .dccisw }, none, 0)
  else if what ∈ timerRegs32 then do
    let x ← s.regs.getGpr rt
    let r := vdevTimerAccess32 conf syscounter (decodeDir iss ≠ 0) what x s.vtimer
    let s ← { s with vtimer := r.v }.setGpr rt r.rt
    some (s, r.expiration, 0)
  else some (s, none, -1)

/-- The registers that `emulate_cp15_32` emulates. -/
def emulated32 : List U32 :=
  [Cp32.midr.code, Cp32.dcisw.code, Cp32.dccsw.code, Cp32.dccisw.code] ++ timerRegs32

/-! ## Accesses of two registers -/

/-- `rt2` of `cp15_64.c`. -/
def cp15Rt2 (iss : U32) : U32 := (iss &&& 0xf <<< 10) >>> 10

/-- `decode_cp15` of `cp15_64.c`. -/
def decodeCp15_64 (iss : U32) : U32 :=
  (iss &&& 0xf <<< 16) >>> 16 <<< 8 ||| (iss &&& 0xf <<< 1) >>> 1 <<< 4

/-- The registers that `emulate_cp15_64` passes on to the virtual timer. -/
def timerRegs64 : List U32 :=
  [Cp64.cntpct.code, Cp64.cntvct.code, Cp64.cntpCval.code, Cp64.cntvCval.code]

/-- `emulate_cp15_64`, with the argument of `tm_set_timer` if the software timer has been set, and
the value that is returned. -/
def emulateCp15_64 (conf : TimerConf) (syscounter : U64) (iss : U32) (s : TrapState D) :
    Option (TrapState D × Option U64 × ℤ) :=
  let rt := cp15Rt iss
  let rt2 := cp15Rt2 iss
  let what := decodeCp15_64 iss
  if what ∈ timerRegs64 then do
    let low ← s.regs.getGpr rt
    let high ← s.regs.getGpr rt2
    let r := vdevTimerAccess64 conf syscounter (decodeDir iss ≠ 0) what (low, high) s.vtimer
    let s ← { s with vtimer := r.v }.setGpr rt r.rt.1
    let s ← s.setGpr rt2 r.rt.2
    some (s, r.expiration, 0)
  else some (s, none, -1)

/-! ## Transfers -/

inductive Trap
  | dataAbort
  | mcrMrc
  | mcrrMrrc

namespace Trap

def handle (conf : TimerConf) (syscounter : U64) (vdevs : List (VdevInstance D)) (trap : Trap)
    (iss : U32) (s : TrapState D) : Option (TrapState D) :=
  match trap with
  | .dataAbort => vdevHandler vdevs iss s
  | .mcrMrc => (emulateCp15_32 conf syscounter iss s).map Prod.fst
  | .mcrrMrrc => (emulateCp15_64 conf syscounter iss s).map Prod.fst

def named (trap : Trap) (iss : U32) : List U32 :=
  match trap with
  | .dataAbort => [srt iss]
  | .mcrMrc => [cp15Rt iss]
  | .mcrrMrrc => [cp15Rt iss, cp15Rt2 iss]

/-- The instruction reads a device or a coprocessor register. -/
def Reads (trap : Trap) (iss : U32) : Prop :=
  match trap with
  | .dataAbort => wnr iss = 0
  | .mcrMrc | .mcrrMrrc => decodeDir iss ≠ 0

/-- There is a device at the address, or an emulation of the coprocessor register. -/
def Emulated (vdevs : List (VdevInstance D)) (trap : Trap) (iss : U32) (s : TrapState D) : Prop :=
  match trap with
  | .dataAbort => ∃ v ∈ vdevs, v.Covers (fipa s.hw)
  | .mcrMrc => decodeCp15_32 iss ∈ emulated32
  | .mcrrMrrc => decodeCp15_64 iss ∈ timerRegs64

/-- The handler finds the registers it uses in the trap frame, and a read changes none of them but
those that the instruction names. -/
def StaysInFrame (conf : TimerConf) (syscounter : U64) (vdevs : List (VdevInstance D))
    (trap : Trap) (iss : U32) (s : TrapState D) : Prop :=
  ∃ t, trap.handle conf syscounter vdevs iss s = some t ∧
    (trap.Reads iss → SameBut (trap.named iss) s.regs t.regs)

end Trap

theorem SameBut.refl (regs : List U32) (s : CoreRegs) : SameBut regs s s :=
  ⟨rfl, rfl, rfl, fun _ _ => rfl⟩

theorem SameBut.trans {regs regs' : List U32} {s t u : CoreRegs} (h : SameBut regs s t)
    (h' : SameBut regs' t u) : SameBut (regs ++ regs') s u := by
  refine ⟨h'.cpsr.trans h.cpsr, h'.pc.trans h.pc, h'.lr.trans h.lr, fun i hi => ?_⟩
  obtain ⟨hi₁, hi₂⟩ := not_or.mp fun hor => hi (List.mem_append.mpr hor)
  exact (h'.gpr i hi₂).trans (h.gpr i hi₁)

variable {s : TrapState D} {i : U32}

theorem getGpr_of_lt (regs : CoreRegs) (hi : i.toNat < 13) :
    regs.getGpr i = some (regs.gpr ⟨i.toNat, hi⟩) :=
  Cells.get_of_lt regs.gpr hi

theorem getGpr_of_le (regs : CoreRegs) (hi : 13 ≤ i.toNat) : regs.getGpr i = none :=
  Cells.get_of_le regs.gpr hi

theorem setGpr_eq_of_lt (s : TrapState D) (x : U32) (hi : i.toNat < 13) :
    s.setGpr i x = some { s with
      regs := { s.regs with gpr := Function.update s.regs.gpr ⟨i.toNat, hi⟩ x } } := by
  rw [TrapState.setGpr, CoreRegs.setGpr, Cells.set_of_lt _ hi]
  rfl

theorem setGpr_of_lt (s : TrapState D) (x : U32) (hi : i.toNat < 13) :
    ∃ t, s.setGpr i x = some t ∧ SameBut [i] s.regs t.regs := by
  refine ⟨_, setGpr_eq_of_lt s x hi, rfl, rfl, rfl, fun j hj => ?_⟩
  refine Function.update_of_ne (fun hji => hj ?_) _ _
  rw [hji, List.mem_singleton, BitVec.ofNat_toNat, BitVec.setWidth_eq]

theorem getGpr_setGpr {s t : TrapState D} {x : U32} (hi : i.toNat < 13)
    (ht : s.setGpr i x = some t) : t.regs.getGpr i = some x := by
  rw [setGpr_eq_of_lt s x hi, Option.some.injEq] at ht
  rw [← ht, getGpr_of_lt _ hi]
  exact congrArg some (Function.update_self ..)

theorem setGpr_of_le (s : TrapState D) (x : U32) (hi : 13 ≤ i.toNat) : s.setGpr i x = none := by
  rw [TrapState.setGpr, CoreRegs.setGpr, Cells.set_of_le _ hi]
  rfl

theorem vdevHandler_eq_some {vdevs : List (VdevInstance D)} {iss : U32}
    (h : (∃ v ∈ vdevs, v.Covers (fipa s.hw)) → (srt iss).toNat < 13) :
    ∃ t, vdevHandler vdevs iss s = some t ∧ SameBut [srt iss] s.regs t.regs := by
  rw [vdevHandler]
  cases hfind : vdevs.find? fun v => v.Covers (fipa s.hw) with
  | none => exact ⟨s, rfl, .refl _ _⟩
  | some v =>
      have hsrt := h ⟨v, List.mem_of_find?_eq_some hfind, by simpa using List.find?_some hfind⟩
      dsimp only
      by_cases hwrite : wnr iss ≠ 0
      · rw [if_pos hwrite, getGpr_of_lt s.regs hsrt]
        exact ⟨_, rfl, .refl _ _⟩
      · rw [if_neg hwrite]
        exact setGpr_of_lt _ _ hsrt

theorem vdevHandler_eq_none {vdevs : List (VdevInstance D)} {iss : U32}
    (h : ∃ v ∈ vdevs, v.Covers (fipa s.hw)) (hsrt : 13 ≤ (srt iss).toNat) :
    vdevHandler vdevs iss s = none := by
  rw [vdevHandler]
  cases hfind : vdevs.find? fun v => v.Covers (fipa s.hw) with
  | none =>
      obtain ⟨v, hv, hcovers⟩ := h
      exact absurd hcovers (by simpa using List.find?_eq_none.mp hfind v hv)
  | some v =>
      dsimp only
      by_cases hwrite : wnr iss ≠ 0
      · rw [if_pos hwrite, getGpr_of_le s.regs hsrt]
        rfl
      · rw [if_neg hwrite]
        exact setGpr_of_le _ _ hsrt

theorem emulateCp15_32_eq_some (conf : TimerConf) (syscounter : U64) {iss : U32}
    (h : decodeCp15_32 iss ∈ emulated32 → (cp15Rt iss).toNat < 13) (s : TrapState D) :
    ∃ r, emulateCp15_32 conf syscounter iss s = some r ∧
      SameBut [cp15Rt iss] s.regs r.1.regs := by
  by_cases hmem : decodeCp15_32 iss ∈ emulated32
  · have hrt := h hmem
    have hget := getGpr_of_lt s.regs hrt
    rw [emulateCp15_32]
    dsimp only
    rw [hget]
    split_ifs
    · exact ⟨_, rfl, .refl _ _⟩
    · obtain ⟨t, ht, hsame⟩ := setGpr_of_lt s (s.hw.readCp32 .midr) hrt
      exact ⟨(t, none, 0), by rw [ht]; rfl, hsame⟩
    · exact ⟨_, rfl, .refl _ _⟩
    · exact ⟨_, rfl, .refl _ _⟩
    · exact ⟨_, rfl, .refl _ _⟩
    · simp only [Option.bind_eq_bind, Option.bind_some]
      generalize vdevTimerAccess32 _ _ _ _ _ _ = r
      obtain ⟨t, ht, hsame⟩ := setGpr_of_lt { s with vtimer := r.v } r.rt hrt
      rw [ht]
      exact ⟨_, rfl, hsame⟩
    · exact ⟨_, rfl, .refl _ _⟩
  · simp only [emulated32, List.mem_append, List.mem_cons, List.not_mem_nil, or_false,
      not_or] at hmem
    obtain ⟨⟨hmidr, hdcisw, hdccsw, hdccisw⟩, htimer⟩ := hmem
    rw [emulateCp15_32]
    dsimp only
    rw [if_neg hmidr, if_neg hdcisw, if_neg hdccsw, if_neg hdccisw, if_neg htimer]
    exact ⟨_, rfl, .refl _ _⟩

theorem emulateCp15_32_eq_none (conf : TimerConf) (syscounter : U64) {iss : U32}
    (h : decodeCp15_32 iss ∈ emulated32) (hrt : 13 ≤ (cp15Rt iss).toNat) (s : TrapState D) :
    emulateCp15_32 conf syscounter iss s = none := by
  rw [emulateCp15_32]
  dsimp only
  rw [getGpr_of_le s.regs hrt, setGpr_of_le s _ hrt]
  simp only [Option.bind_eq_bind, Option.bind_none, ite_self]
  simp only [emulated32, List.mem_append, List.mem_cons, List.not_mem_nil, or_false] at h
  split_ifs <;> simp_all

theorem emulateCp15_64_eq_some (conf : TimerConf) (syscounter : U64) {iss : U32}
    (h : decodeCp15_64 iss ∈ timerRegs64 → (cp15Rt iss).toNat < 13 ∧ (cp15Rt2 iss).toNat < 13)
    (s : TrapState D) :
    ∃ r, emulateCp15_64 conf syscounter iss s = some r ∧
      SameBut [cp15Rt iss, cp15Rt2 iss] s.regs r.1.regs := by
  rw [emulateCp15_64]
  dsimp only
  by_cases hmem : decodeCp15_64 iss ∈ timerRegs64
  · obtain ⟨hrt, hrt2⟩ := h hmem
    rw [if_pos hmem, getGpr_of_lt s.regs hrt, getGpr_of_lt s.regs hrt2]
    simp only [Option.bind_eq_bind, Option.bind_some]
    generalize vdevTimerAccess64 _ _ _ _ _ _ = r
    obtain ⟨t, ht, hsame⟩ := setGpr_of_lt { s with vtimer := r.v } r.rt.1 hrt
    obtain ⟨u, hu, hsame'⟩ := setGpr_of_lt t r.rt.2 hrt2
    rw [ht, Option.bind_some, hu]
    exact ⟨_, rfl, hsame.trans hsame'⟩
  · rw [if_neg hmem]
    exact ⟨_, rfl, .refl _ _⟩

theorem emulateCp15_64_eq_none (conf : TimerConf) (syscounter : U64) {iss : U32}
    (h : decodeCp15_64 iss ∈ timerRegs64)
    (hrt : 13 ≤ (cp15Rt iss).toNat ∨ 13 ≤ (cp15Rt2 iss).toNat) (s : TrapState D) :
    emulateCp15_64 conf syscounter iss s = none := by
  rw [emulateCp15_64]
  dsimp only
  rw [if_pos h]
  rcases hrt with hrt | hrt
  · rw [getGpr_of_le s.regs hrt]
    rfl
  · rw [getGpr_of_le s.regs hrt]
    cases s.regs.getGpr (cp15Rt iss) <;> rfl

/-- A transfer stays in the trap frame exactly if nothing is emulated or all registers that the
instruction names are among the thirteen of the frame. -/
theorem transfer_law_iff (conf : TimerConf) (syscounter : U64) (vdevs : List (VdevInstance D))
    (trap : Trap) (iss : U32) (s : TrapState D) :
    trap.StaysInFrame conf syscounter vdevs iss s ↔
      (trap.Emulated vdevs iss s → ∀ i ∈ trap.named iss, i.toNat < 13) := by
  constructor
  · rintro ⟨t, ht, -⟩ hemulated i hi
    by_contra hlarge
    have hle : 13 ≤ i.toNat := Nat.le_of_not_lt hlarge
    cases trap with
    | dataAbort =>
        obtain rfl := List.mem_singleton.mp hi
        rw [Trap.handle, vdevHandler_eq_none hemulated hle] at ht
        simp at ht
    | mcrMrc =>
        obtain rfl := List.mem_singleton.mp hi
        rw [Trap.handle, emulateCp15_32_eq_none conf syscounter hemulated hle] at ht
        simp at ht
    | mcrrMrrc =>
        have hor : 13 ≤ (cp15Rt iss).toNat ∨ 13 ≤ (cp15Rt2 iss).toNat := by
          simp only [Trap.named, List.mem_cons, List.not_mem_nil, or_false] at hi
          rcases hi with rfl | rfl
          · exact .inl hle
          · exact .inr hle
        rw [Trap.handle, emulateCp15_64_eq_none conf syscounter hemulated hor] at ht
        simp at ht
  · intro h
    cases trap with
    | dataAbort =>
        obtain ⟨t, ht, hsame⟩ := vdevHandler_eq_some fun hex => h hex _ (List.mem_singleton_self _)
        exact ⟨t, ht, fun _ => hsame⟩
    | mcrMrc =>
        obtain ⟨r, hr, hsame⟩ := emulateCp15_32_eq_some conf syscounter
          (fun hmem => h hmem _ (List.mem_singleton_self _)) s
        exact ⟨r.1, by rw [Trap.handle, hr, Option.map_some], fun _ => hsame⟩
    | mcrrMrrc =>
        obtain ⟨r, hr, hsame⟩ := emulateCp15_64_eq_some conf syscounter
          (fun hmem => ⟨h hmem _ (by simp [Trap.named]), h hmem _ (by simp [Trap.named])⟩) s
        exact ⟨r.1, by rw [Trap.handle, hr, Option.map_some], fun _ => hsame⟩

/-- `mrc p15, 0, lr, c14, c2, 1`, which reads `CNTP_CTL` into the link register, leaves the trap
frame. -/
theorem mrc_to_lr_leaves_frame :
    cp15Rt 0x1E239C5 = 14 ∧ decodeCp15_32 0x1E239C5 = Cp32.cntpCtl.code ∧
      decodeDir 0x1E239C5 = 1 ∧
      ¬ Trap.mcrMrc.StaysInFrame default 0 [] 0x1E239C5 ⟨default, default, default, ()⟩ := by
  refine ⟨by decide, by decide, by decide, ?_⟩
  rintro ⟨t, ht, -⟩
  rw [Trap.handle, emulateCp15_32_eq_none _ _ (by decide) (by decide)] at ht
  simp at ht

end

end KHypervisor
