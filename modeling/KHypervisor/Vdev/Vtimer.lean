import KHypervisor.Arch.Registers
import KHypervisor.Timer.Timers

/-!
# The virtual timer

`vdev_timer.c`: the registers of the generic timer that a guest sees, the trapped accesses to them,
and the handler that a software timer calls when the guest's timer expires.
-/

namespace KHypervisor

/-- `struct vdev_timer` without the software timer in it. -/
structure VdevTimer where
  pCtOffset : U64
  frq : U32
  kCtl : U32
  pCtl : U32
  pCval : U64
  vCtl : U32
  vCval : U64
  periodicMode : Bool
  periodicInterval : U32
deriving Inhabited

/-- What an access leaves: the timer, what the pointers to the guest's registers point to, the
argument of `tm_set_timer` if the software timer has been set, and the value that is returned. -/
structure VdevTimerAccess (R : Type) where
  v : VdevTimer
  rt : R
  expiration : Option U64
  ret : U32

/-- The argument that `vdev_timer_set_swtimer` sets the software timer to. -/
def vdevTimerSetSwtimer (conf : TimerConf) (v : VdevTimer) : U64 :=
  timerCountToTimeNs conf (v.pCval + v.pCtOffset)

/-- An access of `vdev_timer_access32` through its pointer `target`. -/
def VdevTimer.access32 (v : VdevTimer) (read : Bool) (rt : U32) (target : U32)
    (assign : U32 → VdevTimer) : VdevTimerAccess U32 :=
  if read then ⟨v, target, none, 0⟩ else ⟨assign rt, rt, none, 0⟩

/-- `vdev_timer_access32`, where `syscounter` is what `timer_get_syscounter` answers. -/
def vdevTimerAccess32 (conf : TimerConf) (syscounter : U64) (read : Bool) (what : U32) (rt : U32)
    (v : VdevTimer) : VdevTimerAccess U32 :=
  if what = Cp32.cntfrq.code then v.access32 read rt v.frq fun x => { v with frq := x }
  else if what = Cp32.cntkctl.code then v.access32 read rt v.kCtl fun x => { v with kCtl := x }
  else if what = Cp32.cntpCtl.code then v.access32 read rt v.pCtl fun x => { v with pCtl := x }
  else if what = Cp32.cntvCtl.code then v.access32 read rt v.vCtl fun x => { v with vCtl := x }
  else if what = Cp32.cntpTval.code then
    if read then ⟨v, (v.pCval - (syscounter - v.pCtOffset)).setWidth 32, none, 0⟩
    else
      let v := { v with pCval := syscounter - v.pCtOffset + rt.setWidth 64 }
      let expiration := vdevTimerSetSwtimer conf v
      ⟨if conf.vtimerPeriodic && v.periodicMode then { v with periodicInterval := rt } else v,
        rt, some expiration, 0⟩
  else if what = Cp32.cntvTval.code then
    if read then ⟨v, (v.vCval - (syscounter - v.pCtOffset)).setWidth 32, none, 0⟩
    else ⟨{ v with vCval := syscounter - v.pCtOffset + rt.setWidth 64 }, rt, none, 0⟩
  else ⟨v, rt, none, 1⟩

/-- An access of `vdev_timer_access64` through its pointer `target`. -/
def VdevTimer.access64 (v : VdevTimer) (read : Bool) (rt : U32 × U32) (target : U64)
    (assign : U64 → VdevTimer) : VdevTimer × (U32 × U32) :=
  if read then (v, (target &&& 0xFFFFFFFF).setWidth 32, (target >>> 32).setWidth 32)
  else (assign (rt.2.setWidth 64 <<< 32 ||| rt.1.setWidth 64), rt)

/-- `vdev_timer_access64`, over the low and the high register. -/
def vdevTimerAccess64 (conf : TimerConf) (syscounter : U64) (read : Bool) (what : U32)
    (rt : U32 × U32) (v : VdevTimer) : VdevTimerAccess (U32 × U32) :=
  if what = Cp64.cntpct.code ∨ what = Cp64.cntvct.code then
    if read then ⟨v, (v.access64 read rt (syscounter + v.pCtOffset) fun _ => v).2, none, 0⟩
    else ⟨v, rt, none, 1⟩
  else if what = Cp64.cntpCval.code then
    let r := v.access64 read rt v.pCval fun x => { v with pCval := x }
    ⟨r.1, r.2, some (vdevTimerSetSwtimer conf r.1), 0⟩
  else if what = Cp64.cntvCval.code then
    let r := v.access64 read rt v.vCval fun x => { v with vCval := x }
    ⟨r.1, r.2, none, 0⟩
  else ⟨v, rt, none, 1⟩

/-- `vdev_timer_handler`, with the new expiration and whether `VTIMER_IRQ` is forwarded to the
virtual processor. -/
def vdevTimerHandler (conf : TimerConf) (expiration : U64) (v : VdevTimer) :
    U64 × VdevTimer × Bool :=
  let expiration :=
    if conf.vtimerPeriodic && v.periodicMode then
      expiration + timerCountToTimeNs conf (v.periodicInterval.setWidth 64)
    else 0
  if v.pCtl &&& 1 = 1 then
    let v := { v with pCtl := v.pCtl ||| 1 <<< 2 }
    (expiration, v, v.pCtl &&& 1 <<< 1 = 0)
  else (expiration, v, false)

/-- `init_vdev_timer` but for the registration of the software timer. -/
def initVdevTimer (conf : TimerConf) (syscounter : U64) (v : VdevTimer) : VdevTimer :=
  let v := if conf.vtimerPeriodic then { v with periodicMode := true, periodicInterval := 0 } else v
  { v with
    frq := 100000000
    kCtl := 0
    pCtl := 0 ||| 1 <<< 1
    vCtl := 0 ||| 1 <<< 1
    pCtOffset := syscounter }

/-! ## Accesses -/

/-- A write of the timer value sets the compare value and arms the software timer. -/
theorem writeTval_eq (conf : TimerConf) (c : U64) (x : U32) (v : VdevTimer) :
    let r := vdevTimerAccess32 conf c false Cp32.cntpTval.code x v
    r.v.pCval = c - v.pCtOffset + x.setWidth 64 ∧ r.v.pCtOffset = v.pCtOffset ∧
      r.v.pCtl = v.pCtl ∧
      r.expiration = some (timerCountToTimeNs conf (r.v.pCval + r.v.pCtOffset)) := by
  have h : vdevTimerAccess32 conf c false Cp32.cntpTval.code x v =
      (let v := { v with pCval := c - v.pCtOffset + x.setWidth 64 }
       ⟨if conf.vtimerPeriodic && v.periodicMode then { v with periodicInterval := x } else v,
        x, some (vdevTimerSetSwtimer conf v), 0⟩) := rfl
  simp only [h]
  split <;> exact ⟨rfl, rfl, rfl, rfl⟩

end KHypervisor
