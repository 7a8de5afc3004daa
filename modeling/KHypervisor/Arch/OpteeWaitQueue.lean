import KHypervisor.Arch.Optee
import KHypervisor.Lib.Run

/-!
# The wait queue

A thread of the trusted OS goes to sleep by a remote procedure, and so does another one wake it
up. The mediator answers the first by holding the thread back whenever its virtual machine returns
from the procedure, and the second by clearing `is_sleep`. Going to sleep sets `is_sleep` without
a look at what it was, so a wake-up that overtakes the sleep is gone: the thread is held back
until another one comes (`wakeups_kept_iff`).
-/

namespace KHypervisor

open Run

variable {k : ℕ}

inductive WaitQueueRequest
  | other
  | sleep
  | wake (thread : ℕ)
deriving DecidableEq

/-- What the secure world asks for with these registers: the commands of the wait queue come in
the message of the thread. -/
def waitQueueRequest (regs : CoreRegs) (s : OpteeState k) : WaitQueueRequest :=
  match Cells.get s.threads (regs.gpr 3).toNat with
  | none => .other
  | some thread =>
      if regs.gpr 0 = opteeRpcFuncCmd ∧ msgCmd thread.msg s.mem = opteeRpcCmdWaitQueue then
        if msgValA thread.msg s.mem ≠ 0 then .wake (msgValB thread.msg s.mem).toNat else .sleep
      else .other

/-! ## What the handlers do to the threads -/

theorem deref_eq_some {p q : U32} (h : deref p = some q) : p ≠ 0 ∧ q = p := by
  rw [deref] at h
  by_cases hp : p = 0
  · rw [if_pos hp] at h
    cases h
  · rw [if_neg hp, Option.some.injEq] at h
    exact ⟨hp, h.symm⟩

/-- A remote procedure changes the thread that asks, and the one that it wakes. -/
theorem handleOpteeRpc_spec {regs : CoreRegs} {s : OpteeState k} {r : CoreRegs × OpteeState k}
    (h : handleOpteeRpc regs s = some r) :
    ∃ i : Fin k, (regs.gpr 3).toNat = i ∧
      (waitQueueRequest regs s = .other ∧
          r.2.threads = Function.update s.threads i { s.threads i with rpc := regs.gpr 0 } ∨
        waitQueueRequest regs s = .sleep ∧ (s.threads i).msg ≠ 0 ∧
          r.2.threads = Function.update s.threads i
            { s.threads i with rpc := opteeRpcFuncDummy, isSleep := true } ∨
        ∃ j : Fin k, waitQueueRequest regs s = .wake j ∧
          ∃ threads, threads =
            Function.update s.threads i { s.threads i with rpc := regs.gpr 0 } ∧
          r.2.threads = Function.update threads j { threads j with isSleep := false }) := by
  rw [handleOpteeRpc] at h
  obtain ⟨thread, hget, h⟩ := Option.bind_eq_some_iff.mp h
  obtain ⟨i, hi, rfl⟩ := Cells.get_eq_some.mp hget
  refine ⟨i, hi, ?_⟩
  rw [waitQueueRequest, hget]
  rw [hi] at h
  simp only [OpteeState.setThread_val, Option.bind_eq_bind, Option.bind_some] at h
  by_cases hcmd : regs.gpr 0 = opteeRpcFuncCmd
  · rw [if_neg (not_not.mpr hcmd)] at h
    obtain ⟨msg, hmsg, h⟩ := Option.bind_eq_some_iff.mp h
    obtain ⟨hne, rfl⟩ := deref_eq_some hmsg
    by_cases hqueue : msgCmd (s.threads i).msg s.mem = opteeRpcCmdWaitQueue
    · dsimp only
      rw [if_pos ⟨hcmd, hqueue⟩]
      rw [if_pos hqueue] at h
      by_cases hwake : msgValA (s.threads i).msg s.mem ≠ 0
      · rw [if_pos hwake] at h ⊢
        obtain ⟨thread, hwoken, h⟩ := Option.bind_eq_some_iff.mp h
        obtain ⟨j, hj, rfl⟩ := Cells.get_eq_some.mp hwoken
        rw [hj, OpteeState.setThread_val, Option.bind_some, Option.some.injEq] at h
        rw [hj, ← h]
        exact Or.inr (Or.inr ⟨j, rfl, _, rfl, rfl⟩)
      · rw [if_neg hwake] at h ⊢
        rw [Option.some.injEq] at h
        rw [← h]
        refine Or.inr (Or.inl ⟨rfl, hne, ?_⟩)
        exact Function.update_idem _ _ _
    · dsimp only
      rw [if_neg fun hall => hqueue hall.2]
      rw [if_neg hqueue, Option.some.injEq] at h
      rw [← h]
      exact Or.inl ⟨rfl, rfl⟩
  · rw [if_pos hcmd, Option.some.injEq] at h
    rw [← h]
    exact Or.inl ⟨if_neg fun hall => hcmd hall.1, rfl⟩

/-- A return from a procedure is answered if the thread waits and sleeps; otherwise it goes on, and
a thread that has waited finds a zero in its message. -/
theorem handleOpteeReturnFromRpc_spec {regs : CoreRegs} {s : OpteeState k}
    {r : Bool × CoreRegs × OpteeState k} (h : handleOpteeReturnFromRpc regs s = some r) :
    ∃ i : Fin k, (regs.gpr 3).toNat = i ∧
      ((s.threads i).rpc = opteeRpcFuncDummy ∧ (s.threads i).isSleep = true ∧
          r = (true, regs.putGpr 0 opteeRpcFuncDummy, s) ∨
        ¬ ((s.threads i).rpc = opteeRpcFuncDummy ∧ (s.threads i).isSleep = true) ∧ r.1 = false ∧
          (∃ thread, thread.rpc = -1 ∧ r.2.2.threads = Function.update s.threads i thread) ∧
          ((s.threads i).rpc = opteeRpcFuncDummy → msgRet (s.threads i).msg r.2.2.mem = 0)) := by
  rw [handleOpteeReturnFromRpc] at h
  obtain ⟨thread, hget, h⟩ := Option.bind_eq_some_iff.mp h
  obtain ⟨i, hi, rfl⟩ := Cells.get_eq_some.mp hget
  refine ⟨i, hi, ?_⟩
  rw [hi] at h
  simp only [OpteeState.setThread_val, Option.bind_eq_bind, Option.bind_some] at h
  by_cases halloc : (s.threads i).rpc = opteeRpcFuncAlloc
  · have hdummy : (s.threads i).rpc ≠ opteeRpcFuncDummy := by
      rw [halloc]
      decide
    rw [if_pos halloc, Option.some.injEq] at h
    rw [← h]
    exact Or.inr ⟨fun hall => hdummy hall.1, rfl, ⟨_, rfl, rfl⟩, fun hrpc => absurd hrpc hdummy⟩
  rw [if_neg halloc] at h
  by_cases hfree : (s.threads i).rpc = opteeRpcFuncFree
  · have hdummy : (s.threads i).rpc ≠ opteeRpcFuncDummy := by
      rw [hfree]
      decide
    rw [if_pos hfree, Option.some.injEq] at h
    rw [← h]
    exact Or.inr ⟨fun hall => hdummy hall.1, rfl, ⟨_, rfl, rfl⟩, fun hrpc => absurd hrpc hdummy⟩
  rw [if_neg hfree] at h
  by_cases hdummy : (s.threads i).rpc = opteeRpcFuncDummy
  · rw [if_pos hdummy] at h
    by_cases hsleep : (s.threads i).isSleep = true
    · rw [if_pos hsleep, Option.some.injEq] at h
      exact Or.inl ⟨hdummy, hsleep, h.symm⟩
    · rw [if_neg hsleep] at h
      obtain ⟨msg, hmsg, h⟩ := Option.bind_eq_some_iff.mp h
      obtain ⟨-, rfl⟩ := deref_eq_some hmsg
      rw [Option.some.injEq] at h
      rw [← h]
      refine Or.inr ⟨fun hall => hsleep hall.2, rfl, ⟨_, rfl, rfl⟩, fun _ => ?_⟩
      exact msgRet_setMsgRet _ _ _
  · rw [if_neg hdummy, Option.some.injEq] at h
    rw [← h]
    exact Or.inr ⟨fun hall => hdummy hall.1, rfl, ⟨_, rfl, rfl⟩, fun hrpc => absurd hrpc hdummy⟩

/-! ## Interleavings -/

/-- The events of the wait queue, with the registers and the memory that the mediator finds: the
secure world asks for a remote procedure, or a virtual machine returns from one. -/
inductive WaitQueueEvent
  | rpc (regs : CoreRegs) (mem : PhysMem)
  | returnFromRpc (regs : CoreRegs) (mem : PhysMem)

/-- The mediator, and what has been asked for about one thread: that it sleeps, that it be woken
up, and that since it went to sleep. -/
structure WaitQueueState (k : ℕ) where
  optee : OpteeState k
  asleep : Bool
  woken : Bool
  wokenSince : Bool

namespace WaitQueueState

/-- `optee.c` before any call. -/
def init (mem : PhysMem) : WaitQueueState k where
  optee := ⟨fun _ => ⟨0, false, 0⟩, ⟨0xFFFFFFFF, 0xFFFFFFFF, 0⟩, mem⟩
  asleep := false
  woken := false
  wokenSince := false

/-- A request of the thread `i`, as it concerns the thread `t`. -/
def asked (t : Fin k) (i : ℕ) (request : WaitQueueRequest) (s : WaitQueueState k) :
    WaitQueueState k :=
  if request = .sleep ∧ i = t then { s with asleep := true, wokenSince := false }
  else
    let s := if i = t then { s with asleep := false } else s
    if request = .wake t then { s with woken := true, wokenSince := true } else s

/-- The thread `i` returns from a procedure. A thread that slept and has been woken up goes on, and
its wake-up is used up. -/
def returned (t : Fin k) (i : ℕ) (s : WaitQueueState k) : WaitQueueState k :=
  if i = t ∧ s.asleep = true ∧ s.woken = true then
    { s with asleep := false, woken := false, wokenSince := false }
  else s

def opteeAt (s : WaitQueueState k) (mem : PhysMem) : OpteeState k := { s.optee with mem := mem }

end WaitQueueState

/-- An event, seen by the thread `t`. -/
def waitQueueStep (t : Fin k) (s : WaitQueueState k) : WaitQueueEvent → Option (WaitQueueState k)
  | .rpc regs mem =>
      (handleOpteeRpc regs (s.opteeAt mem)).map fun r =>
        { s.asked t (regs.gpr 3).toNat (waitQueueRequest regs (s.opteeAt mem)) with optee := r.2 }
  | .returnFromRpc regs mem =>
      (handleOpteeReturnFromRpc regs (s.opteeAt mem)).map fun r =>
        { s.returned t (regs.gpr 3).toNat with optee := r.2.2 }

/-- The return is answered with `OPTEE_RPC_FUNC_DUMMY`, and the secure world is not entered. -/
def HeldBack (regs : CoreRegs) (s : OpteeState k) : Prop :=
  ∃ r, handleOpteeReturnFromRpc regs s = some (true, r) ∧ r.1.gpr 0 = opteeRpcFuncDummy

/-- The return goes on to the secure world, with a zero in `msg->ret`. -/
def PassedOn (msg : U32) (regs : CoreRegs) (s : OpteeState k) : Prop :=
  ∃ r, handleOpteeReturnFromRpc regs s = some (false, r) ∧ msgRet msg r.2.mem = 0

/-- A thread that sleeps is held back until it has been woken up, whenever that was. -/
def WaitQueueLaw (t : Fin k) (s : WaitQueueState k) (e : WaitQueueEvent) (_ : WaitQueueState k) :
    Prop :=
  match e with
  | .rpc _ _ => True
  | .returnFromRpc regs mem =>
      (regs.gpr 3).toNat = t → s.asleep = true →
        if s.woken = true then PassedOn (s.optee.threads t).msg regs (s.opteeAt mem)
        else HeldBack regs (s.opteeAt mem)

/-- The thread returns from a sleep whose wake-up came before it, and none since. -/
def LostWake (t : Fin k) (s : WaitQueueState k) : WaitQueueEvent → Prop
  | .rpc _ _ => False
  | .returnFromRpc regs _ =>
      (regs.gpr 3).toNat = t ∧ s.asleep = true ∧ s.woken = true ∧ s.wokenSince = false

instance decidableLostWake (t : Fin k) (s : WaitQueueState k) :
    ∀ e, Decidable (LostWake t s e)
  | .rpc _ _ => inferInstanceAs (Decidable False)
  | .returnFromRpc regs _ =>
      inferInstanceAs (Decidable ((regs.gpr 3).toNat = t ∧ s.asleep = true ∧ s.woken = true ∧
        s.wokenSince = false))

/-! ## The invariant -/

/-- A thread that sleeps is known to the mediator as sleeping, unless it has been woken up since it
went to sleep. -/
structure WaitQueueInv (t : Fin k) (s : WaitQueueState k) : Prop where
  woken : s.wokenSince = true → s.woken = true
  asleep : s.asleep = true → (s.optee.threads t).rpc = opteeRpcFuncDummy ∧
    (s.optee.threads t).isSleep = !s.wokenSince

theorem waitQueueInv_init (t : Fin k) (mem : PhysMem) :
    WaitQueueInv t (WaitQueueState.init mem) := ⟨Bool.noConfusion, Bool.noConfusion⟩

variable {t : Fin k} {s u : WaitQueueState k} {regs : CoreRegs} {mem : PhysMem}

theorem WaitQueueInv.of_thread (h : WaitQueueInv t s) {optee : OpteeState k}
    (ht : optee.threads t = s.optee.threads t) : WaitQueueInv t { s with optee := optee } := by
  refine ⟨h.woken, fun hasleep => ?_⟩
  dsimp only
  rw [ht]
  exact h.asleep hasleep

theorem WaitQueueInv.of_awake (hwoken : s.wokenSince = true → s.woken = true)
    (hasleep : s.asleep = false) : WaitQueueInv t s := by
  refine ⟨hwoken, fun h => ?_⟩
  rw [hasleep] at h
  cases h

theorem asked_of_ne {i : Fin k} (hi : i ≠ t) {request : WaitQueueRequest}
    (hrequest : request ≠ .wake t) : s.asked t i request = s := by
  have hval : (i : ℕ) ≠ t := fun h => hi (Fin.ext h)
  rw [WaitQueueState.asked, if_neg fun h => hval h.2, if_neg hval, if_neg hrequest]

theorem asked_self {request : WaitQueueRequest} (hsleep : request ≠ .sleep)
    (hrequest : request ≠ .wake t) : s.asked t t request = { s with asleep := false } := by
  rw [WaitQueueState.asked, if_neg fun h => hsleep h.1, if_pos rfl, if_neg hrequest]

theorem asked_sleep : s.asked t t .sleep = { s with asleep := true, wokenSince := false } :=
  if_pos ⟨rfl, rfl⟩

theorem asked_wake_self :
    s.asked t t (.wake t) = { s with asleep := false, woken := true, wokenSince := true } := by
  rw [WaitQueueState.asked, if_neg (by simp), if_pos rfl, if_pos rfl]

theorem asked_wake_of_ne {i : Fin k} (hi : i ≠ t) :
    s.asked t i (.wake t) = { s with woken := true, wokenSince := true } := by
  have hval : (i : ℕ) ≠ t := fun h => hi (Fin.ext h)
  rw [WaitQueueState.asked, if_neg (by simp), if_neg hval, if_pos rfl]

theorem WaitQueueInv.rpc (h : WaitQueueInv t s)
    (hstep : waitQueueStep t s (.rpc regs mem) = some u) : WaitQueueInv t u := by
  obtain ⟨r, hr, rfl⟩ := Option.map_eq_some_iff.mp hstep
  obtain ⟨i, hi, hspec⟩ := handleOpteeRpc_spec hr
  rw [hi]
  rcases hspec with ⟨hother, hthreads⟩ | ⟨hsleep, -, hthreads⟩ | ⟨j, hwake, threads, hask, hthreads⟩
  · rw [hother]
    by_cases hit : i = t
    · rw [hit, asked_self (by simp) (by simp)]
      exact .of_awake h.woken rfl
    · rw [asked_of_ne hit (by simp)]
      refine h.of_thread ?_
      rw [hthreads, Function.update_of_ne (Ne.symm hit)]
      rfl
  · rw [hsleep]
    by_cases hit : i = t
    · rw [hit] at hthreads
      rw [hit, asked_sleep]
      refine ⟨Bool.noConfusion, fun _ => ?_⟩
      dsimp only
      rw [hthreads, Function.update_self]
      exact ⟨rfl, rfl⟩
    · rw [asked_of_ne hit (by simp)]
      refine h.of_thread ?_
      rw [hthreads, Function.update_of_ne (Ne.symm hit)]
      rfl
  · rw [hwake]
    by_cases hjt : j = t
    · rw [hjt] at hthreads
      rw [hjt]
      by_cases hit : i = t
      · rw [hit, asked_wake_self]
        exact .of_awake (fun _ => rfl) rfl
      · -- the thread sleeps as before, but for the mark
        rw [asked_wake_of_ne hit]
        refine ⟨fun _ => rfl, fun hasleep => ?_⟩
        dsimp only
        rw [hthreads, Function.update_self, hask, Function.update_of_ne (Ne.symm hit)]
        exact ⟨(h.asleep hasleep).1, rfl⟩
    · have hother : WaitQueueRequest.wake j ≠ .wake t := fun hsame =>
        hjt (Fin.ext (WaitQueueRequest.wake.inj hsame))
      by_cases hit : i = t
      · rw [hit, asked_self (by simp) hother]
        exact .of_awake h.woken rfl
      · rw [asked_of_ne hit hother]
        refine h.of_thread ?_
        rw [hthreads, Function.update_of_ne (Ne.symm hjt), hask,
          Function.update_of_ne (Ne.symm hit)]
        rfl

/-- The return of another thread, or of one that does not sleep, changes nothing here. -/
theorem returned_of_not {i : Fin k} (h : ¬ (i = t ∧ s.asleep = true ∧ s.woken = true)) :
    s.returned t i = s :=
  if_neg fun hall => h ⟨Fin.ext hall.1, hall.2⟩

theorem WaitQueueInv.return_asleep (h : WaitQueueInv t s) (hasleep : s.asleep = true)
    (hi : (regs.gpr 3).toNat = t) {r : Bool × CoreRegs × OpteeState k}
    (hr : handleOpteeReturnFromRpc regs (s.opteeAt mem) = some r) :
    s.wokenSince = false ∧ r = (true, regs.putGpr 0 opteeRpcFuncDummy, s.opteeAt mem) ∨
      s.wokenSince = true ∧ r.1 = false ∧ msgRet (s.optee.threads t).msg r.2.2.mem = 0 := by
  obtain ⟨hrpc, hmark⟩ := h.asleep hasleep
  obtain ⟨i, hi', hspec⟩ := handleOpteeReturnFromRpc_spec hr
  obtain rfl : i = t := Fin.ext (hi'.symm.trans hi)
  rcases hspec with ⟨-, hsleep, hheld⟩ | ⟨hnot, hon, -, hret⟩
  · have hsince : (!s.wokenSince) = true := hmark.symm.trans hsleep
    rw [Bool.not_eq_true'] at hsince
    exact Or.inl ⟨hsince, hheld⟩
  · refine Or.inr ⟨?_, hon, hret hrpc⟩
    by_contra hsince
    rw [Bool.not_eq_true] at hsince
    rw [hsince] at hmark
    exact hnot ⟨hrpc, hmark⟩

/-- A return obeys the law and keeps the invariant, unless the wake-up is lost. -/
theorem WaitQueueInv.returnFromRpc (h : WaitQueueInv t s)
    (hkept : ¬ LostWake t s (.returnFromRpc regs mem))
    (hstep : waitQueueStep t s (.returnFromRpc regs mem) = some u) :
    WaitQueueLaw t s (.returnFromRpc regs mem) u ∧ WaitQueueInv t u := by
  obtain ⟨r, hr, rfl⟩ := Option.map_eq_some_iff.mp hstep
  by_cases hreturns : (regs.gpr 3).toNat = t ∧ s.asleep = true
  · obtain ⟨hi, hasleep⟩ := hreturns
    rcases h.return_asleep hasleep hi hr with ⟨hsince, rfl⟩ | ⟨hsince, hon, hret⟩
    · -- not woken up since, and by assumption not before
      have hwoken : s.woken ≠ true := fun hwoken => hkept ⟨hi, hasleep, hwoken, hsince⟩
      refine ⟨fun _ _ => ?_, ?_⟩
      · rw [if_neg hwoken]
        exact ⟨_, hr, rfl⟩
      · rw [hi, returned_of_not fun hall => hwoken hall.2.2]
        exact h.of_thread rfl
    · have hwoken := h.woken hsince
      refine ⟨fun _ _ => ?_, ?_⟩
      · rw [if_pos hwoken]
        exact ⟨r.2, hr.trans (by rw [← hon]), hret⟩
      · rw [hi, WaitQueueState.returned, if_pos ⟨rfl, hasleep, hwoken⟩]
        exact .of_awake Bool.noConfusion rfl
  · refine ⟨fun hi hasleep => absurd ⟨hi, hasleep⟩ hreturns, ?_⟩
    obtain ⟨i, hi, hspec⟩ := handleOpteeReturnFromRpc_spec hr
    rw [hi] at hreturns ⊢
    rw [returned_of_not fun hall => hreturns ⟨congrArg Fin.val hall.1, hall.2.1⟩]
    by_cases hit : i = t
    · refine .of_awake h.woken ?_
      rw [← Bool.not_eq_true]
      exact fun hasleep => hreturns ⟨congrArg Fin.val hit, hasleep⟩
    · refine h.of_thread ?_
      rcases hspec with ⟨-, -, rfl⟩ | ⟨-, -, ⟨thread, -, hthreads⟩, -⟩
      · rfl
      · rw [hthreads, Function.update_of_ne (Ne.symm hit)]
        rfl

/-- A return that comes after a lost wake-up is held back all the same. -/
theorem WaitQueueInv.lost (h : WaitQueueInv t s) {e : WaitQueueEvent} (hlost : LostWake t s e)
    (hstep : waitQueueStep t s e = some u) : ¬ WaitQueueLaw t s e u := by
  intro hlaw
  cases e with
  | rpc regs mem => exact hlost
  | returnFromRpc regs mem =>
      obtain ⟨hi, hasleep, hwoken, hsince⟩ := hlost
      obtain ⟨r, hr, -⟩ := Option.map_eq_some_iff.mp hstep
      have hpassed := hlaw hi hasleep
      rw [if_pos hwoken] at hpassed
      obtain ⟨r', hr', -⟩ := hpassed
      rcases h.return_asleep hasleep hi hr with ⟨-, rfl⟩ | ⟨hsince', -, -⟩
      · rw [hr, Option.some.injEq] at hr'
        exact Bool.noConfusion (congrArg Prod.fst hr')
      · rw [hsince] at hsince'
        cases hsince'

/-- From every state that the invariant holds of, the law holds along exactly the runs that lose no
wake-up. -/
theorem waitQueue_follows_iff {events : List WaitQueueEvent} (hs : WaitQueueInv t s)
    (hrun : run (waitQueueStep t) s events = some u) :
    Follows (waitQueueStep t) (WaitQueueLaw t) s events ↔
      ¬ Happened (waitQueueStep t) (LostWake t) s events := by
  refine follows_iff_not_happened hrun hs ?_ fun v e _ w hv hlost hstep => hv.lost hlost hstep
  intro v e _ w hv hkept hstep
  cases e with
  | rpc regs mem => exact ⟨trivial, hv.rpc hstep⟩
  | returnFromRpc regs mem => exact hv.returnFromRpc hkept hstep

/-! ## Through `handle_optee_smc` -/

theorem HeldBack.handleOpteeSmc {optee : OpteeState k} (h : HeldBack regs optee)
    (hid : regs.gpr 0 = opteeSmcReturnFromRpc) :
    ∃ r, r.1.gpr 0 = opteeRpcFuncDummy ∧
      ∀ conf smc vmid, handleOpteeSmc conf smc vmid regs optee = some r := by
  obtain ⟨r, hr, hdummy⟩ := h
  refine ⟨r, hdummy, fun conf smc vmid => ?_⟩
  rw [KHypervisor.handleOpteeSmc, opteeSmcEntry, if_neg (by rw [hid]; decide), if_pos hid, hr]
  rfl

/-- A return that is passed on is a call of the secure world, in a memory with a zero in
`msg->ret`. -/
theorem PassedOn.handleOpteeSmc {msg : U32} {optee : OpteeState k} (h : PassedOn msg regs optee)
    (hid : regs.gpr 0 = opteeSmcReturnFromRpc) :
    ∃ (regs' : CoreRegs) (optee' : OpteeState k), msgRet msg optee'.mem = 0 ∧
      ∀ conf smc vmid,
        handleOpteeSmc conf smc vmid regs optee = opteeSmcEnter smc regs' optee' := by
  obtain ⟨r, hr, hret⟩ := h
  refine ⟨r.1, r.2, hret, fun conf smc vmid => ?_⟩
  rw [KHypervisor.handleOpteeSmc, opteeSmcEntry, if_neg (by rw [hid]; decide), if_pos hid, hr]
  rfl

/-! ## Every interleaving -/

/-- Over every interleaving of requests and returns, with any number of threads: no wake-up of a
thread is lost, and it is held back without one, exactly if it never returns from a sleep whose
wake-up came before it with none since. -/
theorem wakeups_kept_iff (t : Fin k) (mem : PhysMem) {events : List WaitQueueEvent}
    {u : WaitQueueState k}
    (hrun : run (waitQueueStep t) (WaitQueueState.init mem) events = some u) :
    Follows (waitQueueStep t) (WaitQueueLaw t) (WaitQueueState.init mem) events ↔
      ¬ Happened (waitQueueStep t) (LostWake t) (WaitQueueState.init mem) events :=
  waitQueue_follows_iff (waitQueueInv_init t mem) hrun

/-- The registers of a request or of a return: the function, a pointer and the thread. -/
def opteeRegs (function pointer thread : U32) : CoreRegs :=
  { (default : CoreRegs) with gpr := ![function, 0, pointer, thread, 0, 0, 0, 0, 0, 0, 0, 0, 0] }

/-- A memory with a message for the wait queue at `0x1000`. -/
def queueMem (a b : U8) : PhysMem :=
  ⟨fun addr => if addr = 0x1000 then 4 else if addr = 0x1028 then a else if addr = 0x1030 then b
    else 0, []⟩

def bothAlloc : List WaitQueueEvent :=
  [.rpc (opteeRegs opteeRpcFuncAlloc 0 0) (queueMem 0 0),
    .returnFromRpc (opteeRegs opteeSmcReturnFromRpc 0x1000 0) (queueMem 0 0),
    .rpc (opteeRegs opteeRpcFuncAlloc 0 1) (queueMem 0 0),
    .returnFromRpc (opteeRegs opteeSmcReturnFromRpc 0x1000 1) (queueMem 0 0)]

def wakeOne : WaitQueueEvent := .rpc (opteeRegs opteeRpcFuncCmd 0 0) (queueMem 1 1)

def sleepOne : WaitQueueEvent := .rpc (opteeRegs opteeRpcFuncCmd 0 1) (queueMem 0 0)

def returnOne : WaitQueueEvent :=
  .returnFromRpc (opteeRegs opteeSmcReturnFromRpc 0 1) (queueMem 0 0)

/-- The thread 1 sleeps, is woken up and returns. -/
theorem wakeups_kept_iff_sleepFirst :
    ∃ u, run (waitQueueStep (1 : Fin 2)) (WaitQueueState.init (queueMem 0 0))
        (bothAlloc ++ [sleepOne, wakeOne, returnOne]) = some u ∧
      (Follows (waitQueueStep (1 : Fin 2)) (WaitQueueLaw 1) (WaitQueueState.init (queueMem 0 0))
          (bothAlloc ++ [sleepOne, wakeOne, returnOne]) ↔
        ¬ Happened (waitQueueStep (1 : Fin 2)) (LostWake 1) (WaitQueueState.init (queueMem 0 0))
          (bothAlloc ++ [sleepOne, wakeOne, returnOne])) := by
  have hruns : (run (waitQueueStep (1 : Fin 2)) (WaitQueueState.init (queueMem 0 0))
      (bothAlloc ++ [sleepOne, wakeOne, returnOne])).isSome = true := by decide
  obtain ⟨u, hu⟩ := Option.isSome_iff_exists.mp hruns
  exact ⟨u, hu, wakeups_kept_iff 1 (queueMem 0 0) hu⟩

/-- The thread 1 is woken up just before it goes to sleep, and is held back when it returns. -/
theorem early_wake_lost :
    ¬ ∀ (t : Fin 2) (mem : PhysMem) (events : List WaitQueueEvent) (u : WaitQueueState 2),
      run (waitQueueStep t) (WaitQueueState.init mem) events = some u →
        Follows (waitQueueStep t) (WaitQueueLaw t) (WaitQueueState.init mem) events := by
  intro h
  have hruns : (run (waitQueueStep (1 : Fin 2)) (WaitQueueState.init (queueMem 0 0))
      (bothAlloc ++ [wakeOne, sleepOne, returnOne])).isSome = true := by decide
  have hlost : Happened (waitQueueStep (1 : Fin 2)) (LostWake 1)
      (WaitQueueState.init (queueMem 0 0)) (bothAlloc ++ [wakeOne, sleepOne, returnOne]) := by
    decide
  obtain ⟨u, hu⟩ := Option.isSome_iff_exists.mp hruns
  exact (waitQueue_follows_iff (waitQueueInv_init 1 _) hu).mp (h 1 _ _ u hu) hlost

end KHypervisor
