import KHypervisor.Arch.Traps

/-!
# Traps into the hypervisor

`do_hyp_trap` finds the handler of a trap from the syndrome, and skips the instruction that has
trapped. If there is no handler, or it fails, the processor stays in a loop for ever. So a guest
goes on after exactly the traps that are resumed, `doHypTrap_returns_iff`.
-/

namespace KHypervisor

variable {D : Type}

/-! ## The syndrome -/

/-- `EC`. -/
def ec (hsr : U32) : U32 := hsr >>> 26

/-- `IL`. -/
def il (hsr : U32) : U32 := (hsr &&& (1 : U32) <<< 25) >>> 25

/-- `ISS`. -/
def iss (hsr : U32) : U32 := hsr &&& ~~~((0b111111 : U32) <<< 26 ||| (0b1 : U32) <<< 25)

/-- `DFSC`, with the five bits of `FSC_BIT`. -/
def dfsc (iss : U32) : U32 := iss &&& 0b11111

/-- `EC_MCR_MRC_CP15`. -/
def ecMcrMrcCp15 : U32 := 0x03

/-- `EC_MCRR_MRRC_CP15`. -/
def ecMcrrMrrcCp15 : U32 := 0x04

/-- `EC_SMC`. -/
def ecSmc : U32 := 0x13

/-- `EC_DABT_FROM_GUEST`. -/
def ecDabtFromGuest : U32 := 0x24

/-- `TRANS_FAULT`. -/
def transFault (level : U32) : U32 := 0x04 + level

/-- `ACCESS_FAULT`. -/
def accessFault (level : U32) : U32 := 0x08 + level

/-- `IL_ARM`. -/
def ilArm : U32 := 1

/-- `INVALID_HSR`. -/
def invalidHsr : ℤ := -1

/-! ## The handlers -/

/-- What the handlers use: the configuration of the timers, the devices of `current_vm`, and
`handle_arm_smccc`, which is about the state of the whole hypervisor and returns zero. -/
structure TrapHandlers (D : Type) where
  conf : TimerConf
  vdevs : List (VdevInstance D)
  handleArmSmccc : TrapState D → Option (TrapState D)

/-- `handle_data_abort`. All other codes only differ in what is printed. -/
def handleDataAbort (vdevs : List (VdevInstance D)) (iss : U32) (s : TrapState D) :
    Option (TrapState D × ℤ) :=
  if transFault 1 ≤ dfsc iss ∧ dfsc iss ≤ transFault 3 then some (s, 0)
  else if accessFault 1 ≤ dfsc iss ∧ dfsc iss ≤ accessFault 3 then
    (vdevHandler vdevs iss s).map fun s => (s, 0)
  else some (s, -1)

/-- The `switch` of `do_hyp_trap`, with the argument of `tm_set_timer` if the software timer has
been set, and `ret`. -/
def TrapHandlers.dispatch (h : TrapHandlers D) (syscounter : U64) (hsr : U32) (s : TrapState D) :
    Option (TrapState D × Option U64 × ℤ) :=
  if ec hsr = ecMcrMrcCp15 then emulateCp15_32 h.conf syscounter (iss hsr) s
  else if ec hsr = ecMcrrMrrcCp15 then emulateCp15_64 h.conf syscounter (iss hsr) s
  else if ec hsr = ecSmc then (h.handleArmSmccc s).map fun s => (s, none, 0)
  else if ec hsr = ecDabtFromGuest then
    (handleDataAbort h.vdevs (iss hsr) s).map fun r => (r.1, none, r.2)
  else some (s, none, invalidHsr)

/-- `do_hyp_trap` returns to the guest, or prints its message and loops for ever. -/
inductive TrapFate (D : Type)
  | returns (s : TrapState D) (expiration : Option U64)
  | hangs (s : TrapState D)

def instructionSize (hsr : U32) : U32 := if il hsr = ilArm then 4 else 2

/-- `do_hyp_trap`. -/
def doHypTrap (h : TrapHandlers D) (syscounter : U64) (hsr : U32) (s : TrapState D) :
    Option (TrapFate D) :=
  (h.dispatch syscounter hsr s).map fun r =>
    if r.2.2 = invalidHsr then .hangs r.1
    else
      .returns { r.1 with regs := { r.1.regs with pc := r.1.regs.pc + instructionSize hsr } } r.2.1

/-! ## Which traps are resumed -/

/-- The registers that the instruction names. An `smc` may change all of them. -/
def namedRegs (hsr : U32) : List U32 :=
  if ec hsr = ecMcrMrcCp15 then [cp15Rt (iss hsr)]
  else if ec hsr = ecMcrrMrrcCp15 then [cp15Rt (iss hsr), cp15Rt2 (iss hsr)]
  else [srt (iss hsr)]

/-- The data abort is one that `handle_data_abort` takes, and if it is the access to a device, the
register that it names is in the frame. -/
def AbortTaken (vdevs : List (VdevInstance D)) (iss : U32) (s : TrapState D) : Prop :=
  (transFault 1 ≤ dfsc iss ∧ dfsc iss ≤ transFault 3) ∨
    (accessFault 1 ≤ dfsc iss ∧ dfsc iss ≤ accessFault 3) ∧
      ((∃ v ∈ vdevs, v.Covers (fipa s.hw)) → (srt iss).toNat < 13)

/-- There is a handler that takes the trap, and the registers that it uses are in the frame. -/
def TrapHandlers.Resumes (h : TrapHandlers D) (hsr : U32) (s : TrapState D) : Prop :=
  if ec hsr = ecMcrMrcCp15 then
    decodeCp15_32 (iss hsr) ∈ emulated32 ∧ (cp15Rt (iss hsr)).toNat < 13
  else if ec hsr = ecMcrrMrrcCp15 then
    decodeCp15_64 (iss hsr) ∈ timerRegs64 ∧ (cp15Rt (iss hsr)).toNat < 13 ∧
      (cp15Rt2 (iss hsr)).toNat < 13
  else if ec hsr = ecSmc then (h.handleArmSmccc s).isSome = true
  else ec hsr = ecDabtFromGuest ∧ AbortTaken h.vdevs (iss hsr) s

/-- The instruction has been skipped, and nothing else of the frame has changed but the registers
that it names. -/
structure Skips (hsr : U32) (s t : CoreRegs) : Prop where
  pc : t.pc = s.pc + instructionSize hsr
  cpsr : t.cpsr = s.cpsr
  lr : t.lr = s.lr
  gpr : ∀ i : Fin 13, BitVec.ofNat 32 i ∉ namedRegs hsr → t.gpr i = s.gpr i

variable {h : TrapHandlers D} {syscounter : U64} {hsr : U32} {s t : TrapState D}
  {expiration : Option U64}

/-- An access to an emulated register comes to an end only if its registers are in the frame. -/
theorem emulateCp15_32_inFrame {conf : TimerConf} {code : U32}
    {r : TrapState D × Option U64 × ℤ} (hr : emulateCp15_32 conf syscounter code s = some r)
    (hmem : decodeCp15_32 code ∈ emulated32) : (cp15Rt code).toNat < 13 := by
  by_contra hle
  rw [emulateCp15_32_eq_none conf syscounter hmem (Nat.le_of_not_lt hle)] at hr
  exact Option.some_ne_none _ hr.symm

theorem emulateCp15_64_inFrame {conf : TimerConf} {code : U32}
    {r : TrapState D × Option U64 × ℤ} (hr : emulateCp15_64 conf syscounter code s = some r)
    (hmem : decodeCp15_64 code ∈ timerRegs64) :
    (cp15Rt code).toNat < 13 ∧ (cp15Rt2 code).toNat < 13 := by
  by_contra hle
  rw [emulateCp15_64_eq_none conf syscounter hmem (by omega)] at hr
  exact Option.some_ne_none _ hr.symm

theorem vdevHandler_inFrame {vdevs : List (VdevInstance D)} {code : U32}
    (ht : vdevHandler vdevs code s = some t) (hex : ∃ v ∈ vdevs, v.Covers (fipa s.hw)) :
    (srt code).toNat < 13 := by
  by_contra hle
  rw [vdevHandler_eq_none hex (Nat.le_of_not_lt hle)] at ht
  exact Option.some_ne_none _ ht.symm

theorem emulateCp15_32_ret {conf : TimerConf} {code : U32} {r : TrapState D × Option U64 × ℤ}
    (hr : emulateCp15_32 conf syscounter code s = some r) :
    r.2.2 = if decodeCp15_32 code ∈ emulated32 then 0 else invalidHsr := by
  have hmem : decodeCp15_32 code ∈ emulated32 ↔ decodeCp15_32 code = Cp32.midr.code ∨
      decodeCp15_32 code = Cp32.dcisw.code ∨ decodeCp15_32 code = Cp32.dccsw.code ∨
      decodeCp15_32 code = Cp32.dccisw.code ∨ decodeCp15_32 code ∈ timerRegs32 := by
    simp [emulated32]
  have hbind : ∀ {A : Type} {x : Option A} {f : A → TrapState D × Option U64},
      (x.bind fun a => some ((f a).1, (f a).2, (0 : ℤ))) = some r → r.2.2 = 0 := by
    intro A x f hx
    obtain ⟨a, -, ha⟩ := Option.bind_eq_some_iff.mp hx
    rw [← Option.some.inj ha]
  rw [emulateCp15_32] at hr
  dsimp only at hr
  by_cases hin : decodeCp15_32 code ∈ emulated32
  · rw [if_pos hin]
    have hcases := hmem.mp hin
    split_ifs at hr with hmidr hdir hdcisw hdccsw hdccisw htimer
    · exact hbind (f := fun x => ({ s with hw := s.hw.writeCp32 x .midr }, none)) hr
    · exact hbind (f := fun s => (s, none)) hr
    · exact hbind (f := fun x => ({ s with hw := s.hw.writeCp32 x .dccisw }, none)) hr
    · exact hbind (f := fun x => ({ s with hw := s.hw.writeCp32 x .dccsw }, none)) hr
    · exact hbind (f := fun x => ({ s with hw := s.hw.writeCp32 x .dccisw }, none)) hr
    · obtain ⟨x, -, hx⟩ := Option.bind_eq_some_iff.mp hr
      obtain ⟨u, -, hu⟩ := Option.bind_eq_some_iff.mp hx
      rw [← Option.some.inj hu]
    · simp [hmidr, hdcisw, hdccsw, hdccisw, htimer] at hcases
  · rw [if_neg hin]
    rw [hmem] at hin
    simp only [not_or] at hin
    obtain ⟨hmidr, hdcisw, hdccsw, hdccisw, htimer⟩ := hin
    rw [if_neg hmidr, if_neg hdcisw, if_neg hdccsw, if_neg hdccisw, if_neg htimer] at hr
    rw [← Option.some.inj hr]
    rfl

theorem emulateCp15_64_ret {conf : TimerConf} {code : U32} {r : TrapState D × Option U64 × ℤ}
    (hr : emulateCp15_64 conf syscounter code s = some r) :
    r.2.2 = if decodeCp15_64 code ∈ timerRegs64 then 0 else invalidHsr := by
  rw [emulateCp15_64] at hr
  dsimp only at hr
  by_cases hin : decodeCp15_64 code ∈ timerRegs64
  · rw [if_pos hin] at hr ⊢
    obtain ⟨low, -, hr⟩ := Option.bind_eq_some_iff.mp hr
    obtain ⟨high, -, hr⟩ := Option.bind_eq_some_iff.mp hr
    obtain ⟨u, -, hr⟩ := Option.bind_eq_some_iff.mp hr
    obtain ⟨w, -, hr⟩ := Option.bind_eq_some_iff.mp hr
    rw [← Option.some.inj hr]
  · rw [if_neg hin] at hr ⊢
    rw [← Option.some.inj hr]
    rfl

/-- What the handler of a trap leaves, for all but `smc`. -/
theorem sameBut_dispatch {r : TrapState D × Option U64 × ℤ} (hsmc : ec hsr ≠ ecSmc)
    (hr : h.dispatch syscounter hsr s = some r) : SameBut (namedRegs hsr) s.regs r.1.regs := by
  rw [TrapHandlers.dispatch] at hr
  rw [namedRegs]
  split_ifs at hr ⊢ with h32 h64 habort
  · obtain ⟨r', hr', hsame⟩ :=
      emulateCp15_32_eq_some h.conf syscounter (emulateCp15_32_inFrame hr) s
    rwa [← Option.some.inj (hr'.symm.trans hr)]
  · obtain ⟨r', hr', hsame⟩ :=
      emulateCp15_64_eq_some h.conf syscounter (emulateCp15_64_inFrame hr) s
    rwa [← Option.some.inj (hr'.symm.trans hr)]
  · obtain ⟨q, hq, rfl⟩ := Option.map_eq_some_iff.mp hr
    rw [handleDataAbort] at hq
    split_ifs at hq
    · rw [← Option.some.inj hq]
      exact .refl _ _
    · obtain ⟨t, ht, rfl⟩ := Option.map_eq_some_iff.mp hq
      obtain ⟨t', ht', hsame⟩ := vdevHandler_eq_some (vdevHandler_inFrame ht)
      rwa [← Option.some.inj (ht'.symm.trans ht)]
    · rw [← Option.some.inj hq]
      exact .refl _ _
  · rw [← Option.some.inj hr]
    exact .refl _ _

theorem emulateCp15_32_returns_iff (conf : TimerConf) (syscounter : U64) (code : U32)
    (s : TrapState D) :
    (∃ r, emulateCp15_32 conf syscounter code s = some r ∧ r.2.2 ≠ invalidHsr) ↔
      decodeCp15_32 code ∈ emulated32 ∧ (cp15Rt code).toNat < 13 := by
  constructor
  · rintro ⟨r, hr, hret⟩
    rw [emulateCp15_32_ret hr] at hret
    have hmem : decodeCp15_32 code ∈ emulated32 := by
      by_contra hnot
      exact hret (if_neg hnot)
    exact ⟨hmem, emulateCp15_32_inFrame hr hmem⟩
  · rintro ⟨hmem, hlt⟩
    obtain ⟨r, hr, -⟩ := emulateCp15_32_eq_some conf syscounter (fun _ => hlt) s
    refine ⟨r, hr, ?_⟩
    rw [emulateCp15_32_ret hr, if_pos hmem]
    decide

theorem emulateCp15_64_returns_iff (conf : TimerConf) (syscounter : U64) (code : U32)
    (s : TrapState D) :
    (∃ r, emulateCp15_64 conf syscounter code s = some r ∧ r.2.2 ≠ invalidHsr) ↔
      decodeCp15_64 code ∈ timerRegs64 ∧ (cp15Rt code).toNat < 13 ∧
        (cp15Rt2 code).toNat < 13 := by
  constructor
  · rintro ⟨r, hr, hret⟩
    rw [emulateCp15_64_ret hr] at hret
    have hmem : decodeCp15_64 code ∈ timerRegs64 := by
      by_contra hnot
      exact hret (if_neg hnot)
    exact ⟨hmem, emulateCp15_64_inFrame hr hmem⟩
  · rintro ⟨hmem, hlt⟩
    obtain ⟨r, hr, -⟩ := emulateCp15_64_eq_some conf syscounter (fun _ => hlt) s
    refine ⟨r, hr, ?_⟩
    rw [emulateCp15_64_ret hr, if_pos hmem]
    decide

theorem handleDataAbort_returns_iff (vdevs : List (VdevInstance D)) (code : U32)
    (s : TrapState D) :
    (∃ r, handleDataAbort vdevs code s = some r ∧ r.2 ≠ invalidHsr) ↔ AbortTaken vdevs code s := by
  have hzero : (0 : ℤ) ≠ invalidHsr := by decide
  rw [handleDataAbort, AbortTaken]
  by_cases htrans : transFault 1 ≤ dfsc code ∧ dfsc code ≤ transFault 3
  · rw [if_pos htrans]
    exact iff_of_true ⟨_, rfl, hzero⟩ (.inl htrans)
  · rw [if_neg htrans, or_iff_right htrans]
    by_cases haccess : accessFault 1 ≤ dfsc code ∧ dfsc code ≤ accessFault 3
    · rw [if_pos haccess, and_iff_right haccess]
      constructor
      · rintro ⟨r, hr, -⟩ hex
        obtain ⟨t, ht, -⟩ := Option.map_eq_some_iff.mp hr
        exact vdevHandler_inFrame ht hex
      · intro hin
        obtain ⟨t, ht, -⟩ := vdevHandler_eq_some hin
        exact ⟨(t, 0), by rw [ht, Option.map_some], hzero⟩
    · rw [if_neg haccess]
      refine iff_of_false ?_ fun hin => haccess hin.1
      rintro ⟨r, hr, hret⟩
      rw [← Option.some.inj hr] at hret
      exact hret rfl

/-- The handler of a trap finds its registers and does not fail exactly if it takes the trap. -/
theorem dispatch_returns_iff (h : TrapHandlers D) (syscounter : U64) (hsr : U32)
    (s : TrapState D) :
    (∃ r, h.dispatch syscounter hsr s = some r ∧ r.2.2 ≠ invalidHsr) ↔ h.Resumes hsr s := by
  have hzero : (0 : ℤ) ≠ invalidHsr := by decide
  rw [TrapHandlers.dispatch, TrapHandlers.Resumes]
  split_ifs with h32 h64 hsmc habort
  · exact emulateCp15_32_returns_iff h.conf syscounter (iss hsr) s
  · exact emulateCp15_64_returns_iff h.conf syscounter (iss hsr) s
  · rw [Option.isSome_iff_exists]
    constructor
    · rintro ⟨r, hr, -⟩
      obtain ⟨t, ht, -⟩ := Option.map_eq_some_iff.mp hr
      exact ⟨t, ht⟩
    · rintro ⟨t, ht⟩
      exact ⟨(t, none, 0), by rw [ht, Option.map_some], hzero⟩
  · rw [and_iff_right habort, ← handleDataAbort_returns_iff]
    constructor
    · rintro ⟨r, hr, hret⟩
      obtain ⟨q, hq, rfl⟩ := Option.map_eq_some_iff.mp hr
      exact ⟨q, hq, hret⟩
    · rintro ⟨q, hq, hret⟩
      exact ⟨(q.1, none, q.2), by rw [hq, Option.map_some], hret⟩
  · refine iff_of_false ?_ fun habort' => habort habort'.1
    rintro ⟨r, hr, hret⟩
    rw [← Option.some.inj hr] at hret
    exact hret rfl

/-- A guest goes on after a trap exactly if a handler takes it, and then the instruction has been
skipped and, unless it was an `smc`, no register has changed that it does not name. Any other trap
but an access beyond the frame keeps the processor in the loop of `do_hyp_trap` for ever. -/
theorem doHypTrap_returns_iff (h : TrapHandlers D) (syscounter : U64) (hsr : U32)
    (s : TrapState D) :
    ((∃ t expiration, doHypTrap h syscounter hsr s = some (.returns t expiration)) ↔
        h.Resumes hsr s) ∧
      (∀ t expiration, doHypTrap h syscounter hsr s = some (.returns t expiration) →
        ec hsr ≠ ecSmc → Skips hsr s.regs t.regs) ∧
      (¬ h.Resumes hsr s → doHypTrap h syscounter hsr s = none ∨
        ∃ t, doHypTrap h syscounter hsr s = some (.hangs t)) := by
  have hreturns : ∀ t expiration, doHypTrap h syscounter hsr s = some (.returns t expiration) →
      ∃ r, h.dispatch syscounter hsr s = some r ∧ r.2.2 ≠ invalidHsr ∧
        t.regs = { r.1.regs with pc := r.1.regs.pc + instructionSize hsr } := by
    intro t expiration ht
    obtain ⟨r, hr, hfate⟩ := Option.map_eq_some_iff.mp ht
    split at hfate
    · exact absurd hfate (by simp)
    · rename_i hret
      obtain ⟨rfl, -⟩ := TrapFate.returns.inj hfate
      exact ⟨r, hr, hret, rfl⟩
  refine ⟨⟨?_, fun hresumes => ?_⟩, fun t expiration ht hsmc => ?_, fun hnot => ?_⟩
  · rintro ⟨t, expiration, ht⟩
    obtain ⟨r, hr, hret, -⟩ := hreturns t expiration ht
    exact (dispatch_returns_iff h syscounter hsr s).mp ⟨r, hr, hret⟩
  · obtain ⟨r, hr, hret⟩ := (dispatch_returns_iff h syscounter hsr s).mpr hresumes
    exact ⟨_, _, by rw [doHypTrap, hr, Option.map_some, if_neg hret]⟩
  · obtain ⟨r, hr, -, hregs⟩ := hreturns t expiration ht
    obtain ⟨hcpsr, hpc, hlr, hgpr⟩ := sameBut_dispatch hsmc hr
    rw [hregs]
    exact ⟨by rw [hpc], hcpsr, hlr, hgpr⟩
  · cases hr : h.dispatch syscounter hsr s with
    | none => exact .inl (by rw [doHypTrap, hr, Option.map_none])
    | some r =>
        refine .inr ⟨r.1, ?_⟩
        have hret : r.2.2 = invalidHsr := by
          by_contra hret
          exact hnot ((dispatch_returns_iff h syscounter hsr s).mp ⟨r, hr, hret⟩)
        rw [doHypTrap, hr, Option.map_some, if_pos hret]

end KHypervisor
