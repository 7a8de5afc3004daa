import KHypervisor.Arch.Traps
import KHypervisor.Timer.ListIntegrity

/-!
# Reads of the timer registers

Reads and writes of the registers of a virtual timer go through the same functions, the last line of
which, in `vdev_timer_access64`, sets the software timer again whenever `CNTP_CVAL` was accessed. A
read of it arms a software timer that has fired already, whose deadline is served a second time
then, and moves one to another place. All other reads leave everything as it is:
`readsHarmless_iff`.

What the timers of the processors are programmed with is left out. Their interrupts are events of a
run, at any time.
-/

namespace KHypervisor

open Run Links

/-- The software timers, the virtual timers of the virtual processors, and those that `VTIMER_IRQ`
has been forwarded to, in their order. -/
structure Vtimers where
  trace : TimerTrace
  vtimer : VcpuId → VdevTimer
  virqs : List VcpuId

/-- What the processors do to the timers: virtual processor `v` is initialised, the scheduler of a
processor is started, `v` accesses a register of the coprocessor, which comes with the trap frame
and the registers of the processor, or the timer interrupt is taken. -/
inductive VtimersEvent
  | vcpuInit (cpu : PcpuId) (v : VcpuId) (syscounter : U64)
  | schedStart (cpu : PcpuId) (expiration : U64)
  | cp15_32 (cpu : PcpuId) (v : VcpuId) (syscounter : U64) (iss : U32) (regs : CoreRegs)
      (hw : Registers)
  | cp15_64 (cpu : PcpuId) (v : VcpuId) (syscounter : U64) (iss : U32) (regs : CoreRegs)
      (hw : Registers)
  | irq (cpu : PcpuId) (count : U64) (doSchedule : PcpuId → U64 → U64)

def vtimersCallback (conf : TimerConf) (doSchedule : PcpuId → U64 → U64) :
    TimerCallback ((VcpuId → VdevTimer) × List VcpuId)
  | .vtimer v, expiration, (vtimer, virqs) =>
      let r := vdevTimerHandler conf expiration (vtimer v)
      some (r.1, Function.update vtimer v r.2.1, if r.2.2 then virqs ++ [v] else virqs)
  | .sched p, expiration, s => some (doSchedule p expiration, s)

namespace Vtimers

/-- The state after `timemanager_init`, over any memory. -/
def init (timer : TimerRef → Timer) (hw : PcpuId → TimerHw) (vtimer : VcpuId → VdevTimer) :
    Vtimers :=
  ⟨.init timer hw, vtimer, []⟩

/-- What an access to a register of the coprocessor leaves, by virtual processor `v` on processor
`cpu`. -/
def access {D : Type} (fuel : ℕ) (conf : TimerConf) (cpu : PcpuId) (v : VcpuId)
    (r : TrapState D × Option U64 × ℤ) (σ : Vtimers) : Option Vtimers :=
  let σ := { σ with vtimer := Function.update σ.vtimer v r.1.vtimer }
  match r.2.1 with
  | none => some σ
  | some expiration =>
      (timerStep fuel conf σ.trace (.set cpu (.vtimer v) expiration true)).map fun trace =>
        { σ with trace := trace }

end Vtimers

/-- A virtual processor is initialised once, and runs only then. A scheduler is started once. -/
def vtimersStep (fuel : ℕ) (conf : TimerConf) (σ : Vtimers) : VtimersEvent → Option Vtimers
  | .vcpuInit cpu v syscounter =>
      if σ.trace.home (.vtimer v) = none then
        (timerStep fuel conf σ.trace (.register cpu (.vtimer v))).map fun trace =>
          { σ with
            trace := trace
            vtimer := Function.update σ.vtimer v (initVdevTimer conf syscounter (σ.vtimer v)) }
      else none
  | .schedStart cpu expiration =>
      if σ.trace.home (.sched cpu) = none then do
        let trace ← timerStep fuel conf σ.trace (.register cpu (.sched cpu))
        let trace ← timerStep fuel conf trace (.set cpu (.sched cpu) expiration true)
        some { σ with trace := trace }
      else none
  | .cp15_32 cpu v syscounter iss regs hw =>
      if σ.trace.home (.vtimer v) = none then none
      else (emulateCp15_32 conf syscounter iss ⟨regs, hw, σ.vtimer v, ()⟩).bind fun r =>
        σ.access fuel conf cpu v r
  | .cp15_64 cpu v syscounter iss regs hw =>
      if σ.trace.home (.vtimer v) = none then none
      else (emulateCp15_64 conf syscounter iss ⟨regs, hw, σ.vtimer v, ()⟩).bind fun r =>
        σ.access fuel conf cpu v r
  | .irq cpu count doSchedule =>
      (timerIrqHandler fuel conf cpu count (vtimersCallback conf doSchedule)
        (σ.trace.timers, σ.vtimer, σ.virqs)).map fun r =>
          ⟨{ σ.trace with timers := r.1 }, r.2.1, r.2.2⟩

def VtimersEvent.ReadsTimer : VtimersEvent → Prop
  | .cp15_32 _ _ _ iss _ _ => decodeDir iss ≠ 0 ∧ decodeCp15_32 iss ∈ timerRegs32
  | .cp15_64 _ _ _ iss _ _ => decodeDir iss ≠ 0 ∧ decodeCp15_64 iss ∈ timerRegs64
  | _ => False

/-- All that a guest can notice of the timers is the same: the virtual timers, the state, the
expiration and the place of the software timers, and the interrupts that have been forwarded. -/
structure SameVtimers (σ τ : Vtimers) : Prop where
  vtimer : τ.vtimer = σ.vtimer
  timer : τ.trace.timers.timer = σ.trace.timers.timer
  lists : ∀ p ts, τ.trace.timers.active.IsList p ts ↔ σ.trace.timers.active.IsList p ts
  virqs : τ.virqs = σ.virqs

def ReadLaw (σ : Vtimers) (e : VtimersEvent) (σ' : Vtimers) : Prop :=
  e.ReadsTimer → SameVtimers σ σ'

/-- The reads of a run change nothing, and the run without some of them ends in the same state, with
the same interrupts on the way. -/
def ReadsHarmless (fuel : ℕ) (conf : TimerConf) (σ : Vtimers) (es : List VtimersEvent) : Prop :=
  Follows (vtimersStep fuel conf) ReadLaw σ es ∧
    ∀ es' τ, Drops VtimersEvent.ReadsTimer es es' → run (vtimersStep fuel conf) σ es = some τ →
      ∃ τ', run (vtimersStep fuel conf) σ es' = some τ' ∧ SameVtimers τ τ'

/-- The software timer of `v` is armed for the compare value, as the last one in the list of a
processor. -/
def ArmedLast (conf : TimerConf) (σ : Vtimers) (cpu : PcpuId) (v : VcpuId) : Prop :=
  (σ.trace.timers.timer (.vtimer v)).state = 1 ∧
    (σ.trace.timers.timer (.vtimer v)).expiration = vdevTimerSetSwtimer conf (σ.vtimer v) ∧
    σ.trace.timers.active.prev (.head cpu) = some (.item (.vtimer v))

instance decidableArmedLast (conf : TimerConf) (σ : Vtimers) (cpu : PcpuId) (v : VcpuId) :
    Decidable (ArmedLast conf σ cpu v) :=
  inferInstanceAs (Decidable (_ ∧ _ ∧ _))

/-- `CNTP_CVAL` is read when the software timer is not armed so. -/
def Rearms (conf : TimerConf) (σ : Vtimers) : VtimersEvent → Prop
  | .cp15_64 cpu v _ iss _ _ =>
      decodeDir iss ≠ 0 ∧ decodeCp15_64 iss = Cp64.cntpCval.code ∧ ¬ ArmedLast conf σ cpu v
  | _ => False

variable {fuel n : ℕ} {conf : TimerConf} {σ σ' τ : Vtimers} {active : PcpuId → List TimerRef}
  {cpu : PcpuId} {v : VcpuId} {iss : U32} {syscounter : U64}

/-! ## The accesses -/

/-- A read of one register leaves the virtual timer as it is and does not set the software timer. -/
theorem vdevTimerAccess32_read (conf : TimerConf) (syscounter : U64) (what rt : U32)
    (v : VdevTimer) :
    (vdevTimerAccess32 conf syscounter true what rt v).v = v ∧
      (vdevTimerAccess32 conf syscounter true what rt v).expiration = none := by
  simp only [vdevTimerAccess32, VdevTimer.access32, if_true]
  repeat' split
  all_goals exact ⟨rfl, rfl⟩

/-- A read of two registers leaves the virtual timer as it is, and sets the software timer if it is
one of `CNTP_CVAL`. -/
theorem vdevTimerAccess64_read (conf : TimerConf) (syscounter : U64) (what : U32) (rt : U32 × U32)
    (v : VdevTimer) :
    (vdevTimerAccess64 conf syscounter true what rt v).v = v ∧
      (vdevTimerAccess64 conf syscounter true what rt v).expiration =
        if what = Cp64.cntpCval.code then some (vdevTimerSetSwtimer conf v) else none := by
  rw [vdevTimerAccess64]
  by_cases hcount : what = Cp64.cntpct.code ∨ what = Cp64.cntvct.code
  · have hne : what ≠ Cp64.cntpCval.code := by
      rintro rfl
      exact absurd hcount (by decide)
    rw [if_pos hcount, if_pos rfl, if_neg hne]
    exact ⟨rfl, rfl⟩
  · rw [if_neg hcount]
    by_cases hcval : what = Cp64.cntpCval.code
    · rw [if_pos hcval, if_pos hcval]
      exact ⟨rfl, rfl⟩
    · rw [if_neg hcval, if_neg hcval]
      split <;> exact ⟨rfl, rfl⟩

theorem setGpr_vtimer {i x : U32} {s s' : TrapState Unit} (h : s.setGpr i x = some s') :
    s'.vtimer = s.vtimer := by
  obtain ⟨regs, -, rfl⟩ := Option.map_eq_some_iff.mp h
  rfl

theorem emulateCp15_32_read {s : TrapState Unit} {r : TrapState Unit × Option U64 × ℤ}
    (hdir : decodeDir iss ≠ 0) (hr : emulateCp15_32 conf syscounter iss s = some r) :
    r.1.vtimer = s.vtimer ∧ r.2.1 = none := by
  rw [emulateCp15_32] at hr
  dsimp only at hr
  rw [if_neg hdir, decide_eq_true hdir] at hr
  split_ifs at hr
  · obtain ⟨s', hs', hr⟩ := Option.bind_eq_some_iff.mp hr
    rw [← Option.some.inj hr]
    exact ⟨setGpr_vtimer hs', rfl⟩
  · obtain ⟨x, -, hr⟩ := Option.bind_eq_some_iff.mp hr
    rw [← Option.some.inj hr]
    exact ⟨rfl, rfl⟩
  · obtain ⟨x, -, hr⟩ := Option.bind_eq_some_iff.mp hr
    rw [← Option.some.inj hr]
    exact ⟨rfl, rfl⟩
  · obtain ⟨x, -, hr⟩ := Option.bind_eq_some_iff.mp hr
    rw [← Option.some.inj hr]
    exact ⟨rfl, rfl⟩
  · obtain ⟨x, -, hr⟩ := Option.bind_eq_some_iff.mp hr
    obtain ⟨s', hs', hr⟩ := Option.bind_eq_some_iff.mp hr
    obtain ⟨hv, hexp⟩ := vdevTimerAccess32_read conf syscounter (decodeCp15_32 iss) x s.vtimer
    rw [← Option.some.inj hr]
    exact ⟨(setGpr_vtimer hs').trans hv, hexp⟩
  · rw [← Option.some.inj hr]
    exact ⟨rfl, rfl⟩

theorem emulateCp15_64_read {s : TrapState Unit} {r : TrapState Unit × Option U64 × ℤ}
    (hdir : decodeDir iss ≠ 0) (hwhat : decodeCp15_64 iss ∈ timerRegs64)
    (hr : emulateCp15_64 conf syscounter iss s = some r) :
    r.1.vtimer = s.vtimer ∧ r.2.1 =
      if decodeCp15_64 iss = Cp64.cntpCval.code then some (vdevTimerSetSwtimer conf s.vtimer)
      else none := by
  rw [emulateCp15_64] at hr
  dsimp only at hr
  rw [if_pos hwhat, decide_eq_true hdir] at hr
  obtain ⟨low, -, hr⟩ := Option.bind_eq_some_iff.mp hr
  obtain ⟨high, -, hr⟩ := Option.bind_eq_some_iff.mp hr
  obtain ⟨hv, hexp⟩ :=
    vdevTimerAccess64_read conf syscounter (decodeCp15_64 iss) (low, high) s.vtimer
  obtain ⟨s₁, hs₁, hr⟩ := Option.bind_eq_some_iff.mp hr
  obtain ⟨s₂, hs₂, hr⟩ := Option.bind_eq_some_iff.mp hr
  rw [← Option.some.inj hr]
  exact ⟨(setGpr_vtimer hs₂).trans ((setGpr_vtimer hs₁).trans hv), hexp⟩

/-! ## Machines that are alike -/

/-- The same timers in the same lists, whatever the links of the inactive lists and the registers of
the hardware are. -/
structure Alike (active : PcpuId → List TimerRef) (σ τ : Vtimers) : Prop where
  left : ∃ n, ActiveInv n σ.trace active
  right : ∃ n, ActiveInv n τ.trace active
  home : ∀ t, τ.trace.home t = none ↔ σ.trace.home t = none
  timer : τ.trace.timers.timer = σ.trace.timers.timer
  vtimer : τ.vtimer = σ.vtimer
  virqs : τ.virqs = σ.virqs

theorem Alike.refl (h : ActiveInv n σ.trace active) : Alike active σ σ :=
  ⟨⟨n, h⟩, ⟨n, h⟩, fun _ => Iff.rfl, rfl, rfl, rfl⟩

theorem Alike.trans {ρ : Vtimers} (h : Alike active σ τ) (h' : Alike active τ ρ) :
    Alike active σ ρ :=
  ⟨h.left, h'.right, fun t => (h'.home t).trans (h.home t), h'.timer.trans h.timer,
    h'.vtimer.trans h.vtimer, h'.virqs.trans h.virqs⟩

theorem Alike.sameVtimers (h : Alike active σ τ) : SameVtimers σ τ := by
  obtain ⟨n, hσ⟩ := h.left
  obtain ⟨m, hτ⟩ := h.right
  refine ⟨h.vtimer, h.timer, fun p ts => ⟨fun hts => ?_, fun hts => ?_⟩, h.virqs⟩
  · rw [(hτ.lists.isList p).unique hts]
    exact hσ.lists.isList p
  · rw [(hσ.lists.isList p).unique hts]
    exact hτ.lists.isList p

theorem home_update_iff {home home' : TimerRef → Option PcpuId}
    (h : ∀ t, home' t = none ↔ home t = none) (t : TimerRef) (p : PcpuId) (t' : TimerRef) :
    Function.update home' t (some p) t' = none ↔ Function.update home t (some p) t' = none := by
  by_cases ht : t' = t <;> simp [ht, h]

theorem Alike.register (h : Alike active σ τ) {t : TimerRef} (ht : σ.trace.home t = none)
    {trace : TimerTrace} (hstep : timerStep fuel conf σ.trace (.register cpu t) = some trace) :
    ∃ trace', timerStep fuel conf τ.trace (.register cpu t) = some trace' ∧
      trace.home = Function.update σ.trace.home t (some cpu) ∧
      ∀ vtimer virqs, Alike active ⟨trace, vtimer, virqs⟩ ⟨trace', vtimer, virqs⟩ := by
  obtain ⟨n, hσ⟩ := h.left
  obtain ⟨m, hτ⟩ := h.right
  have hnot : ∀ q, t ∉ active q := fun q hq => hσ.home q t hq ht
  obtain ⟨T, hT, hinv, htimer⟩ := hσ.register fuel conf cpu hnot
  obtain ⟨T', hT', hinv', htimer'⟩ := hτ.register fuel conf cpu hnot
  obtain rfl := Option.some.inj (hstep.symm.trans hT)
  refine ⟨_, hT', rfl, fun vtimer virqs => ⟨⟨_, hinv⟩, ⟨_, hinv'⟩, home_update_iff h.home t cpu, ?_,
    rfl, rfl⟩⟩
  dsimp only
  rw [htimer, htimer', h.timer]

theorem Alike.set (h : Alike active σ τ) {t : TimerRef} (ht : σ.trace.home t ≠ none)
    {expiration : U64} {stopstart : Bool} {trace : TimerTrace}
    (hstep : timerStep fuel conf σ.trace (.set cpu t expiration stopstart) = some trace) :
    ∃ trace', timerStep fuel conf τ.trace (.set cpu t expiration stopstart) = some trace' ∧
      ∀ vtimer virqs,
        Alike (placed active cpu t) ⟨trace, vtimer, virqs⟩ ⟨trace', vtimer, virqs⟩ := by
  obtain ⟨n, hσ⟩ := h.left
  obtain ⟨m, hτ⟩ := h.right
  obtain ⟨hlength, hhome, hinv, htimer⟩ := hσ.of_set ht hstep
  obtain ⟨T', hT', hinv', htimer', -⟩ := hτ.set conf (mt (h.home t).mp ht) hlength
    expiration stopstart
  refine ⟨_, hT', fun vtimer virqs => ⟨⟨_, hinv⟩, ⟨_, hinv'⟩, ?_, ?_, rfl, rfl⟩⟩
  · dsimp only
    rw [hhome]
    exact home_update_iff h.home t cpu
  · dsimp only
    rw [htimer, htimer', h.timer]

theorem Alike.access {D : Type} (h : Alike active σ τ) (hv : σ.trace.home (.vtimer v) ≠ none)
    {r : TrapState D × Option U64 × ℤ} (hstep : σ.access fuel conf cpu v r = some σ') :
    ∃ τ' active', τ.access fuel conf cpu v r = some τ' ∧ Alike active' σ' τ' := by
  rw [Vtimers.access] at hstep
  rw [Vtimers.access]
  have hvtimer : Function.update τ.vtimer v r.1.vtimer = Function.update σ.vtimer v r.1.vtimer := by
    rw [h.vtimer]
  cases hexp : r.2.1 with
  | none =>
      rw [hexp] at hstep
      rw [← Option.some.inj hstep]
      exact ⟨_, active, rfl, h.left, h.right, h.home, h.timer, hvtimer, h.virqs⟩
  | some expiration =>
      rw [hexp] at hstep
      obtain ⟨trace, htrace, rfl⟩ := Option.map_eq_some_iff.mp hstep
      obtain ⟨trace', htrace', halike⟩ := h.set hv htrace
      dsimp only
      rw [htrace', hvtimer, h.virqs]
      exact ⟨_, _, rfl, halike _ _⟩

theorem Alike.irq (h : Alike active σ τ) {count : U64} {doSchedule : PcpuId → U64 → U64}
    (hstep : vtimersStep fuel conf σ (.irq cpu count doSchedule) = some σ') :
    ∃ τ', vtimersStep fuel conf τ (.irq cpu count doSchedule) = some τ' ∧ Alike active σ' τ' := by
  obtain ⟨n, hσ⟩ := h.left
  obtain ⟨m, hτ⟩ := h.right
  obtain ⟨r, hr, rfl⟩ := Option.map_eq_some_iff.mp hstep
  have hlength := length_le_of_timerIrqHandler (hσ.lists.isList cpu) hr
  rw [timerIrqHandler_eq (hσ.lists.isList cpu) hlength] at hr
  obtain ⟨x, hx, rfl⟩ := Option.map_eq_some_iff.mp hr
  rw [vtimersStep, timerIrqHandler_eq (hτ.lists.isList cpu) hlength, h.timer, h.vtimer, h.virqs, hx]
  refine ⟨_, rfl, ⟨n, ?_⟩, ⟨m, ?_⟩, h.home, rfl, rfl, rfl⟩
  · exact ⟨hσ.lists, hσ.home, hσ.alone, hσ.inactive, hσ.length⟩
  · exact ⟨hτ.lists, hτ.home, hτ.alone, hτ.inactive, hτ.length⟩

theorem Alike.step (h : Alike active σ τ) {e : VtimersEvent}
    (hstep : vtimersStep fuel conf σ e = some σ') :
    ∃ τ' active', vtimersStep fuel conf τ e = some τ' ∧ Alike active' σ' τ' := by
  cases e with
  | vcpuInit cpu v syscounter =>
      rw [vtimersStep] at hstep ⊢
      split_ifs at hstep with hnew
      rw [if_pos ((h.home _).mpr hnew)]
      obtain ⟨trace, htrace, rfl⟩ := Option.map_eq_some_iff.mp hstep
      obtain ⟨trace', htrace', -, halike⟩ := h.register hnew htrace
      rw [htrace', h.vtimer, h.virqs]
      exact ⟨_, active, rfl, halike _ _⟩
  | schedStart cpu expiration =>
      rw [vtimersStep] at hstep ⊢
      split_ifs at hstep with hnew
      rw [if_pos ((h.home _).mpr hnew)]
      obtain ⟨trace, htrace, hstep⟩ := Option.bind_eq_some_iff.mp hstep
      obtain ⟨trace₁, htrace₁, hstep⟩ := Option.bind_eq_some_iff.mp hstep
      obtain ⟨trace', htrace', hhome, halike⟩ := h.register hnew htrace
      have hregistered : trace.home (.sched cpu) ≠ none := by simp [hhome]
      obtain ⟨trace₁', htrace₁', halike₁⟩ :=
        (halike σ.vtimer σ.virqs).set hregistered htrace₁
      rw [← Option.some.inj hstep, htrace', Option.bind_eq_bind, Option.bind_some, htrace₁',
        Option.bind_some, h.vtimer, h.virqs]
      exact ⟨_, _, rfl, halike₁ _ _⟩
  | cp15_32 cpu v syscounter iss regs hw =>
      rw [vtimersStep] at hstep ⊢
      split_ifs at hstep with hv
      obtain ⟨r, hr, hstep⟩ := Option.bind_eq_some_iff.mp hstep
      rw [if_neg (mt (h.home _).mp hv), h.vtimer, hr, Option.bind_some]
      exact h.access hv hstep
  | cp15_64 cpu v syscounter iss regs hw =>
      rw [vtimersStep] at hstep ⊢
      split_ifs at hstep with hv
      obtain ⟨r, hr, hstep⟩ := Option.bind_eq_some_iff.mp hstep
      rw [if_neg (mt (h.home _).mp hv), h.vtimer, hr, Option.bind_some]
      exact h.access hv hstep
  | irq cpu count doSchedule =>
      obtain ⟨τ', hτ', halike⟩ := h.irq hstep
      exact ⟨τ', active, hτ', halike⟩

/-! ## Reads -/

/-- To put a timer at the end of a list changes nothing if it is there already. -/
theorem placed_eq_iff {T : Timers} {t : TimerRef} (hL : T.active.Lists active) (p : PcpuId) :
    placed active p t = active ↔ T.active.prev (.head p) = some (.item t) := by
  obtain ⟨x, hx, hlast⟩ := (hL.isList p).path.last
  rw [hx.2, Option.some.injEq]
  constructor
  · intro h
    have hend := congrFun h p
    rw [placed, Function.update_self] at hend
    rcases hlast with ⟨hnil, -⟩ | ⟨m, j, hm, rfl⟩
    · simp [hnil] at hend
    · rw [hm] at hend
      rw [List.singleton_injective.eq_iff.mp (List.append_inj_right' hend rfl)]
  · rintro rfl
    obtain ⟨-, hx⟩ | ⟨m, j, hm, hj⟩ := hlast
    · cases hx
    · obtain rfl := Node.item.inj hj
      have hmem : t ∈ active p := by simp [hm]
      funext q
      by_cases hq : q = p
      · have hnot : t ∉ m := fun hin => by
          have hnodup := (hL.isList p).nodup
          rw [hm] at hnodup
          exact (List.nodup_append.mp hnodup).2.2 t hin t (List.mem_singleton_self t) rfl
        rw [hq, placed, Function.update_self, hm, List.erase_append_right _ hnot]
        simp
      · rw [placed, Function.update_of_ne hq]
        exact List.erase_of_not_mem fun hin => hq (hL.unique t q p hin hmem)

/-- What a read of `CNTP_CVAL` leaves. -/
theorem read_cval (h : ActiveInv n σ.trace active) (hv : σ.trace.home (.vtimer v) ≠ none)
    {trace : TimerTrace}
    (hstep : timerStep fuel conf σ.trace
      (.set cpu (.vtimer v) (vdevTimerSetSwtimer conf (σ.vtimer v)) true) = some trace) :
    (ArmedLast conf σ cpu v → Alike active { σ with trace := trace } σ) ∧
      (SameVtimers σ { σ with trace := trace } → ArmedLast conf σ cpu v) := by
  obtain ⟨-, hhome, hinv, htimer⟩ := h.of_set hv hstep
  have hplaced := placed_eq_iff (t := .vtimer v) h.lists cpu
  constructor
  · rintro ⟨hstate, hexp, hlast⟩
    rw [hplaced.mpr hlast] at hinv
    refine ⟨⟨_, hinv⟩, ⟨_, h⟩, fun t => ?_, ?_, rfl, rfl⟩
    · dsimp only
      rw [hhome]
      by_cases ht : t = .vtimer v
      · simp [ht, hv]
      · simp [ht]
    · dsimp only
      rw [htimer, ← hexp, ← hstate, Function.update_eq_self]
  · intro hsame
    have hfields := congrFun hsame.timer (.vtimer v)
    dsimp only at hfields
    rw [htimer, Function.update_self] at hfields
    refine ⟨by rw [← hfields], by rw [← hfields], hplaced.mp (funext fun p => ?_)⟩
    exact (h.lists.isList p).unique ((hsame.lists p _).mp (hinv.lists.isList p))

/-- A read changes nothing, unless it is one of `CNTP_CVAL` that sets the software timer anew. -/
theorem read_spec (h : ActiveInv n σ.trace active) {e : VtimersEvent} (he : e.ReadsTimer)
    (hstep : vtimersStep fuel conf σ e = some σ') :
    (¬ Rearms conf σ e → Alike active σ' σ) ∧ (Rearms conf σ e → ¬ SameVtimers σ σ') := by
  cases e with
  | vcpuInit => exact he.elim
  | schedStart => exact he.elim
  | irq => exact he.elim
  | cp15_32 cpu v syscounter iss regs hw =>
      rw [vtimersStep] at hstep
      split_ifs at hstep with hv
      obtain ⟨r, hr, hstep⟩ := Option.bind_eq_some_iff.mp hstep
      obtain ⟨hvtimer, hexp⟩ := emulateCp15_32_read he.1 hr
      rw [Vtimers.access, hvtimer, hexp, Function.update_eq_self] at hstep
      obtain rfl := Option.some.inj hstep
      exact ⟨fun _ => .refl h, False.elim⟩
  | cp15_64 cpu v syscounter iss regs hw =>
      rw [vtimersStep] at hstep
      split_ifs at hstep with hv
      obtain ⟨r, hr, hstep⟩ := Option.bind_eq_some_iff.mp hstep
      obtain ⟨hvtimer, hexp⟩ := emulateCp15_64_read he.1 he.2 hr
      rw [Vtimers.access, hvtimer, hexp, Function.update_eq_self] at hstep
      by_cases hcval : decodeCp15_64 iss = Cp64.cntpCval.code
      · rw [if_pos hcval] at hstep
        obtain ⟨trace, htrace, rfl⟩ := Option.map_eq_some_iff.mp hstep
        obtain ⟨hkeep, hchange⟩ := read_cval h hv htrace
        refine ⟨fun hnot => hkeep ?_, fun hrearms hsame => hrearms.2.2 (hchange hsame)⟩
        by_contra harmed
        exact hnot ⟨he.1, hcval, harmed⟩
      · rw [if_neg hcval] at hstep
        obtain rfl := Option.some.inj hstep
        exact ⟨fun _ => .refl h, fun hrearms => absurd hrearms.2.1 hcval⟩

/-! ## Runs -/

/-- From the start of the hypervisor on, the reads of a run of the timers are harmless if and only
if none of them sets a software timer anew. -/
theorem readsHarmless_iff (timer : TimerRef → Timer) (hw : PcpuId → TimerHw)
    (vtimer : VcpuId → VdevTimer) {es : List VtimersEvent}
    (hrun : run (vtimersStep fuel conf) (.init timer hw vtimer) es = some τ) :
    ReadsHarmless fuel conf (.init timer hw vtimer) es ↔
      ¬ Happened (vtimersStep fuel conf) (Rearms conf) (.init timer hw vtimer) es := by
  have hinit : ActiveInv 0 (Vtimers.init timer hw vtimer).trace fun _ => [] :=
    activeInv_init timer hw
  have hnext : ∀ {u v : Vtimers} {e : VtimersEvent},
      (∃ n active, ActiveInv n u.trace active) → vtimersStep fuel conf u e = some v →
        ∃ n active, ActiveInv n v.trace active := by
    rintro u v e ⟨n, active, h⟩ hv
    obtain ⟨v', active', -, halike⟩ := (Alike.refl h).step hv
    obtain ⟨m, hm⟩ := halike.left
    exact ⟨m, active', hm⟩
  have hlaw : Follows (vtimersStep fuel conf) ReadLaw (.init timer hw vtimer) es ↔
      ¬ Happened (vtimersStep fuel conf) (Rearms conf) (.init timer hw vtimer) es := by
    refine follows_iff_not_happened (I := fun σ => ∃ n active, ActiveInv n σ.trace active) hrun
      ⟨0, _, hinit⟩ (fun u e _ v hu hnot hv => ⟨fun he => ?_, hnext hu hv⟩)
      fun u e _ v hu hrearms hv hlaw => ?_
    · obtain ⟨n, active, h⟩ := hu
      have halike := (read_spec h he hv).1 hnot
      obtain ⟨m, hm⟩ := halike.left
      exact ⟨halike.vtimer.symm, halike.timer.symm,
        fun p ts => (halike.sameVtimers.lists p ts).symm, halike.virqs.symm⟩
    · obtain ⟨n, active, h⟩ := hu
      have he : e.ReadsTimer := by
        cases e with
        | cp15_64 cpu v syscounter iss regs hw =>
            refine ⟨hrearms.1, ?_⟩
            rw [hrearms.2.1]
            decide
        | _ => exact hrearms.elim
      exact (read_spec h he hv).2 hrearms (hlaw he)
  refine ⟨fun h => hlaw.mp h.1, fun hnot => ⟨hlaw.mpr hnot, fun es' τ hdrops hτ => ?_⟩⟩
  suffices hsim : ∃ τ', run (vtimersStep fuel conf) (.init timer hw vtimer) es' = some τ' ∧
      ∃ active, Alike active τ τ' by
    obtain ⟨τ', hτ', active, halike⟩ := hsim
    exact ⟨τ', hτ', halike.sameVtimers⟩
  refine run_drops (A := fun σ τ => ∃ active, Alike active σ τ) hdrops ⟨_, .refl hinit⟩ hτ hnot
    ?_ ?_
  · rintro u w e u' ⟨active, halike⟩ hu
    obtain ⟨w', active', hw', halike'⟩ := halike.step hu
    exact ⟨w', hw', active', halike'⟩
  · rintro u w e u' ⟨active, halike⟩ he hrearms hu
    obtain ⟨n, h⟩ := halike.left
    exact ⟨active, ((read_spec h he hu).1 hrearms).trans halike⟩

/-- The syndrome of an access to `CNTP_CTL` through the first general register. -/
def cntpCtlIss (dir : U32) : U32 := 1 <<< 17 ||| 14 <<< 10 ||| 2 <<< 1 ||| dir

/-- The syndrome of an access to `CNTP_CVAL` through the first two general registers. -/
def cntpCvalIss (dir : U32) : U32 := 2 <<< 16 ||| 1 <<< 10 ||| 14 <<< 1 ||| dir

/-- A virtual processor enables its timer, sets the compare value to 1, and is interrupted. -/
def servedTimer : List VtimersEvent :=
  [.vcpuInit 0 0 0,
    .cp15_32 0 0 0 (cntpCtlIss 0) { (default : CoreRegs) with gpr := fun _ => 1 } default,
    .cp15_64 0 0 0 (cntpCvalIss 0)
      { (default : CoreRegs) with gpr := fun i => if i = 0 then 1 else 0 } default,
    .irq 0 100 fun _ _ => 0]

/-- A timer whose compare value is read while it is armed. -/
theorem readsHarmless_iff_armed :
    ReadsHarmless 2 ⟨10, false⟩ (.init default default default)
        (servedTimer.take 3 ++ [.cp15_64 0 0 0 (cntpCvalIss 1) default default]) ↔
      ¬ Happened (vtimersStep 2 ⟨10, false⟩) (Rearms ⟨10, false⟩) (.init default default default)
        (servedTimer.take 3 ++ [.cp15_64 0 0 0 (cntpCvalIss 1) default default]) :=
  readsHarmless_iff default default default rfl

/-- The compare value is read when the timer has fired. The next interrupt is forwarded once more,
and is not if the read is left out. -/
theorem read_serves_deadline_again :
    (run (vtimersStep 2 ⟨10, false⟩) (.init default default default) (servedTimer ++
      [.cp15_64 0 0 100 (cntpCvalIss 1) default default, .irq 0 101 fun _ _ => 0])).map
        Vtimers.virqs = some [0, 0] ∧
    (run (vtimersStep 2 ⟨10, false⟩) (.init default default default) (servedTimer ++
      [.irq 0 101 fun _ _ => 0])).map Vtimers.virqs = some [0] ∧
    ¬ ReadsHarmless 2 ⟨10, false⟩ (.init default default default) (servedTimer ++
      [.cp15_64 0 0 100 (cntpCvalIss 1) default default, .irq 0 101 fun _ _ => 0]) := by
  refine ⟨rfl, rfl, fun h => ?_⟩
  have hdrops : Drops VtimersEvent.ReadsTimer
      (servedTimer ++ [.cp15_64 0 0 100 (cntpCvalIss 1) default default, .irq 0 101 fun _ _ => 0])
      (servedTimer ++ [.irq 0 101 fun _ _ => 0]) :=
    .keep _ (.keep _ (.keep _ (.keep _ (.drop _ ⟨by decide, by decide⟩ (.keep _ .nil)))))
  obtain ⟨τ, hτ, hsame⟩ := h.2 _ _ hdrops rfl
  obtain rfl := Option.some.inj hτ
  exact absurd hsame.virqs (by decide)

end KHypervisor
