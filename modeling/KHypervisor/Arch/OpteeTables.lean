import KHypervisor.Arch.OpteeWaitQueue

/-!
# The accesses of the mediator

A return from a remote procedure and the answers of the secure world name a thread by a number in
a register, and a wake-up names one by a number in a message. Nobody compares these numbers with
the length of `threads`. What the mediator stores of the messages is sound: it goes through the
message of a thread that waits because that thread has slept, and so has one.
-/

namespace KHypervisor

open Run

variable {k : ℕ}

/-- What the handlers reach for: an entry of `threads`, or the message of a thread. -/
inductive OpteeAccess
  | thread (i : ℕ)
  | msg (i : ℕ)

/-- The accesses of `handle_optee_return_from_rpc`. -/
def returnFromRpcAccesses (regs : CoreRegs) (s : OpteeState k) : List OpteeAccess :=
  let threadId := (regs.gpr 3).toNat
  .thread threadId ::
    match Cells.get s.threads threadId with
    | none => []
    | some thread =>
        if thread.rpc = opteeRpcFuncDummy ∧ thread.isSleep = false then [.msg threadId] else []

/-- The accesses of `handle_optee_rpc`. -/
def rpcAccesses (regs : CoreRegs) (s : OpteeState k) : List OpteeAccess :=
  let threadId := (regs.gpr 3).toNat
  .thread threadId ::
    match Cells.get s.threads threadId with
    | none => []
    | some thread =>
        if regs.gpr 0 = opteeRpcFuncCmd then
          .msg threadId ::
            match deref thread.msg with
            | none => []
            | some msg =>
                if msgCmd msg s.mem = opteeRpcCmdWaitQueue ∧ msgValA msg s.mem ≠ 0 then
                  [.thread (msgValB msg s.mem).toNat]
                else []
        else []

/-- An access within the array, or through a pointer other than `NULL`. -/
def OpteeAccess.Lands (s : OpteeState k) : OpteeAccess → Prop
  | .thread i => i < k
  | .msg i => ∃ thread, Cells.get s.threads i = some thread ∧ thread.msg ≠ 0

theorem isSome_deref {p : U32} : (deref p).isSome ↔ p ≠ 0 := by
  rw [deref]
  split_ifs with h
  · exact iff_of_false Bool.false_ne_true (not_not.mpr h)
  · exact iff_of_true rfl h

theorem lands_thread_val (s : OpteeState k) (i : Fin k) : OpteeAccess.Lands s (.thread i) := i.isLt

theorem lands_msg_val {s : OpteeState k} {i : Fin k} :
    OpteeAccess.Lands s (.msg i) ↔ (s.threads i).msg ≠ 0 := by
  simp [OpteeAccess.Lands, Cells.get_val]

theorem thread_cases (k : ℕ) (n : ℕ) : (∃ i : Fin k, n = i) ∨ k ≤ n := by
  rcases Nat.lt_or_ge n k with h | h
  · exact Or.inl ⟨⟨n, h⟩, rfl⟩
  · exact Or.inr h

theorem isSome_handleOpteeReturnFromRpc_iff (regs : CoreRegs) (s : OpteeState k) :
    (handleOpteeReturnFromRpc regs s).isSome ↔
      ∀ access ∈ returnFromRpcAccesses regs s, access.Lands s := by
  rw [handleOpteeReturnFromRpc, returnFromRpcAccesses]
  rcases thread_cases k (regs.gpr 3).toNat with ⟨i, hi⟩ | hout
  · have hthread := lands_thread_val s i
    simp only [hi, Cells.get_val, OpteeState.setThread_val, Option.bind_eq_bind, Option.bind_some,
      List.forall_mem_cons, hthread, true_and]
    by_cases hwaits : (s.threads i).rpc = opteeRpcFuncDummy ∧ (s.threads i).isSleep = false
    · obtain ⟨hrpc, hawake⟩ := hwaits
      have halloc : opteeRpcFuncDummy ≠ opteeRpcFuncAlloc := by decide
      have hfree : opteeRpcFuncDummy ≠ opteeRpcFuncFree := by decide
      rw [hrpc, if_neg halloc, if_neg hfree, if_pos rfl, hawake, if_neg Bool.false_ne_true,
        if_pos ⟨rfl, rfl⟩, Option.isSome_bind, List.forall_mem_singleton, lands_msg_val,
        ← isSome_deref]
      cases deref (s.threads i).msg <;> rfl
    · rw [if_neg hwaits]
      refine iff_of_true ?_ fun access h => absurd h List.not_mem_nil
      split_ifs with _ _ hrpc hsleep
      · rfl
      · rfl
      · rfl
      · exact absurd ⟨hrpc, Bool.not_eq_true _ ▸ hsleep⟩ hwaits
      · rfl
  · have hthread : ¬ OpteeAccess.Lands s (.thread (regs.gpr 3).toNat) := Nat.not_lt_of_le hout
    simp [Cells.get_of_le s.threads hout, hthread]

theorem isSome_handleOpteeRpc_iff (regs : CoreRegs) (s : OpteeState k) :
    (handleOpteeRpc regs s).isSome ↔ ∀ access ∈ rpcAccesses regs s, access.Lands s := by
  rw [handleOpteeRpc, rpcAccesses]
  rcases thread_cases k (regs.gpr 3).toNat with ⟨i, hi⟩ | hout
  · have hthread := lands_thread_val s i
    simp only [hi, Cells.get_val, OpteeState.setThread_val, Option.bind_eq_bind, Option.bind_some,
      List.forall_mem_cons, hthread, true_and]
    by_cases hcmd : regs.gpr 0 = opteeRpcFuncCmd
    · rw [if_neg (not_not.mpr hcmd), if_pos hcmd, List.forall_mem_cons, lands_msg_val,
        ← isSome_deref]
      cases deref (s.threads i).msg with
      | none => simp
      | some msg =>
          simp only [Option.bind_some, Option.isSome_some, true_and]
          by_cases hqueue : msgCmd msg s.mem = opteeRpcCmdWaitQueue
          · by_cases hwake : msgValA msg s.mem ≠ 0
            · rw [if_pos hqueue, if_pos hwake, if_pos ⟨hqueue, hwake⟩, List.forall_mem_singleton]
              rcases thread_cases k (msgValB msg s.mem).toNat with ⟨j, hj⟩ | hfar
              · simp [hj, Cells.get_val, OpteeState.setThread_val, lands_thread_val]
              · have hwoken : ¬ OpteeAccess.Lands s (.thread (msgValB msg s.mem).toNat) :=
                  Nat.not_lt_of_le hfar
                simp [Cells.get_of_le _ hfar, hwoken]
            · rw [if_pos hqueue, if_neg hwake, if_neg fun hall => hwake hall.2]
              simp
          · rw [if_neg hqueue, if_neg fun hall => hqueue hall.1]
            simp
    · rw [if_pos hcmd, if_neg hcmd]
      simp
  · have hthread : ¬ OpteeAccess.Lands s (.thread (regs.gpr 3).toNat) := Nat.not_lt_of_le hout
    simp [Cells.get_of_le s.threads hout, hthread]

/-! ## The history of the messages -/

/-- A guest makes a call, and meets the secure world if it asks for the shared memory; or the
secure world answers one. -/
inductive OpteeEvent
  | smc (vmid : VmId) (regs : CoreRegs) (mem : PhysMem) (world : SecureWorld)
  | answer (regs : CoreRegs) (mem : PhysMem)

/-- The mediator, and what the threads have been through: the last return from an `ALLOC` or a
`FREE` was one from an `ALLOC`; the secure world has asked for an `OPTEE_RPC_FUNC_DUMMY`, which
is the answer of the mediator itself, and the thread has not gone on since. -/
structure OpteeTrace (k : ℕ) where
  optee : OpteeState k
  hasMsg : Fin k → Bool
  forged : Fin k → Bool

namespace OpteeTrace

/-- `optee.c` before any call. -/
def init (mem : PhysMem) : OpteeTrace k where
  optee := ⟨fun _ => ⟨0, false, 0⟩, ⟨0xFFFFFFFF, 0xFFFFFFFF, 0⟩, mem⟩
  hasMsg := fun _ => false
  forged := fun _ => false

def opteeAt (s : OpteeTrace k) (mem : PhysMem) : OpteeState k := { s.optee with mem := mem }

def returned (regs : CoreRegs) (s : OpteeTrace k) : OpteeTrace k :=
  { s with
    hasMsg := fun i =>
      if (regs.gpr 3).toNat = i then
        if (s.optee.threads i).rpc = opteeRpcFuncAlloc then true
        else if (s.optee.threads i).rpc = opteeRpcFuncFree then false
        else s.hasMsg i
      else s.hasMsg i
    forged := fun i => if (regs.gpr 3).toNat = i then false else s.forged i }

def asked (regs : CoreRegs) (s : OpteeTrace k) : OpteeTrace k :=
  { s with
    forged := fun i =>
      if (regs.gpr 3).toNat = i then regs.gpr 0 == opteeRpcFuncDummy else s.forged i }

/-- The thread `i` has a message: an `ALLOC` has brought it one, and no `FREE` has taken it. -/
def Has (s : OpteeTrace k) (i : ℕ) : Prop := ∃ j : Fin k, i = j ∧ s.hasMsg j = true

end OpteeTrace

/-- An event. A return that is held back leaves everything as it is. -/
def opteeStep (conf : OpteeConf) (s : OpteeTrace k) : OpteeEvent → Option (OpteeTrace k)
  | .smc vmid regs mem world =>
      (opteeSmcEntry conf world vmid regs (s.opteeAt mem)).map fun r =>
        if regs.gpr 0 = opteeSmcReturnFromRpc ∧ r.1 = false then
          { s.returned regs with optee := r.2.2 }
        else { s with optee := r.2.2 }
  | .answer regs mem =>
      if opteeSmcRetIsRpc (regs.gpr 0) then
        (handleOpteeRpc regs (s.opteeAt mem)).map fun r => { s.asked regs with optee := r.2 }
      else some { s with optee := s.opteeAt mem }

def opteeAccesses (s : OpteeTrace k) : OpteeEvent → List OpteeAccess
  | .smc _ regs mem _ =>
      if regs.gpr 0 = opteeSmcReturnFromRpc then returnFromRpcAccesses regs (s.opteeAt mem) else []
  | .answer regs mem =>
      if opteeSmcRetIsRpc (regs.gpr 0) then rpcAccesses regs (s.opteeAt mem) else []

/-- An access within the array, or to a message that the thread has. -/
def OpteeAccess.Allowed (s : OpteeTrace k) : OpteeAccess → Prop
  | .thread i => i < k
  | .msg i => s.Has i

/-- The event reaches beyond the array, or for a message that is not there. -/
def Overreaches (s : OpteeTrace k) (e : OpteeEvent) : Prop :=
  ∃ access ∈ opteeAccesses s e, ¬ access.Allowed s

/-- The values that make an event overreach. A guest returns from a procedure with a number that is
too large, or for a thread without a message that neither sleeps nor was put to sleep by the
mediator. The secure world answers with a number that is too large, with a command for a thread
without a message, or with a wake-up of a thread whose number is too large. -/
def BadValue (s : OpteeTrace k) : OpteeEvent → Prop
  | .smc _ regs _ _ =>
      regs.gpr 0 = opteeSmcReturnFromRpc ∧
        (k ≤ (regs.gpr 3).toNat ∨
          ∃ i : Fin k, (regs.gpr 3).toNat = i ∧ s.forged i = true ∧
            (s.optee.threads i).isSleep = false ∧ s.hasMsg i = false)
  | .answer regs mem =>
      opteeSmcRetIsRpc (regs.gpr 0) = true ∧
        (k ≤ (regs.gpr 3).toNat ∨
          ∃ i : Fin k, (regs.gpr 3).toNat = i ∧ regs.gpr 0 = opteeRpcFuncCmd ∧
            (s.hasMsg i = false ∨
              ∃ msg, deref (s.optee.threads i).msg = some msg ∧
                msgCmd msg mem = opteeRpcCmdWaitQueue ∧ msgValA msg mem ≠ 0 ∧
                k ≤ (msgValB msg mem).toNat))

/-! ## Calls as runs -/

/-- A call that asks for the shared memory leaves the threads alone. -/
theorem handleOpteeGetShmConfig_threads {conf : OpteeConf} {world : SecureWorld} {vmid : VmId}
    {regs : CoreRegs} {s : OpteeState k} {r : CoreRegs × OpteeState k}
    (h : handleOpteeGetShmConfig conf world vmid regs s = some r) : r.2.threads = s.threads := by
  obtain ⟨shm, hshm, h⟩ := Option.bind_eq_some_iff.mp h
  obtain ⟨mem, -, h⟩ := Option.bind_eq_some_iff.mp h
  rw [Option.some.injEq] at h
  rw [← h]
  rw [opteeAskShm] at hshm
  split_ifs at hshm
  · obtain ⟨mem', -, rfl⟩ := Option.map_eq_some_iff.mp hshm
    rfl
  · rw [Option.some.injEq] at hshm
    rw [← hshm]

/-- What `handle_optee_smc` does after its switch is an event. -/
theorem opteeSmcEnter_step {conf : OpteeConf} {world : SecureWorld} {regs : CoreRegs}
    {s : OpteeTrace k} {r : CoreRegs × OpteeState k}
    (h : opteeSmcEnter world regs s.optee = some r) :
    ∃ e t, opteeStep conf s e = some t ∧ t.optee = r.2 := by
  rw [opteeSmcEnter] at h
  generalize armSmcccSmc world _ regs s.optee.mem = back at h
  split_ifs at h with hrpc
  · refine ⟨.answer back.1 back.2, { s.asked back.1 with optee := r.2 }, ?_, rfl⟩
    rw [opteeStep, if_pos hrpc, OpteeTrace.opteeAt, h, Option.map_some]
  · rw [Option.some.injEq] at h
    rw [← h]
    exact ⟨.answer back.1 back.2, _, if_neg hrpc, rfl⟩

/-- Every call of `handle_optee_smc` is an event, or two with the secure world between them. -/
theorem handleOpteeSmc_run {conf : OpteeConf} {world : SecureWorld} {vmid : VmId}
    {regs : CoreRegs} {s : OpteeTrace k} {mem : PhysMem} {r : CoreRegs × OpteeState k}
    (h : handleOpteeSmc conf world vmid regs (s.opteeAt mem) = some r) :
    ∃ events t, run (opteeStep conf) s (.smc vmid regs mem world :: events) = some t ∧
      t.optee = r.2 := by
  obtain ⟨entered, hentry, h⟩ := Option.bind_eq_some_iff.mp h
  have hfirst : ∃ u, opteeStep conf s (.smc vmid regs mem world) = some u ∧
      u.optee = entered.2.2 := by
    rw [opteeStep, hentry, Option.map_some]
    split_ifs
    · exact ⟨_, rfl, rfl⟩
    · exact ⟨_, rfl, rfl⟩
  obtain ⟨u, hu, hoptee⟩ := hfirst
  split_ifs at h with hdone
  · rw [Option.some.injEq] at h
    refine ⟨[], u, ?_, hoptee.trans (by rw [h])⟩
    rw [run_cons, hu, Option.bind_some, run_nil]
  · rw [← hoptee] at h
    obtain ⟨e, t, ht, hlast⟩ := opteeSmcEnter_step h
    refine ⟨[e], t, ?_, hlast⟩
    rw [run_cons, hu, Option.bind_some, run_cons, ht, Option.bind_some, run_nil]

/-! ## The invariant -/

/-- A thread that waits has a message, or the secure world has made it wait on its own. -/
structure OpteeInv (s : OpteeTrace k) : Prop where
  waits : ∀ i, (s.optee.threads i).rpc = opteeRpcFuncDummy → s.hasMsg i = true ∨ s.forged i = true
  forged : ∀ i, s.forged i = true → (s.optee.threads i).rpc = opteeRpcFuncDummy

theorem opteeInv_init (mem : PhysMem) : OpteeInv (OpteeTrace.init mem : OpteeTrace k) :=
  ⟨fun _ h => absurd h (show (0 : U32) ≠ opteeRpcFuncDummy by decide),
    fun _ h => Bool.noConfusion h⟩

variable {conf : OpteeConf} {s t : OpteeTrace k} {vmid : VmId} {regs : CoreRegs} {mem : PhysMem}
  {world : SecureWorld}

theorem OpteeInv.of_rpc (h : OpteeInv s) {optee : OpteeState k}
    (hrpc : ∀ i, (optee.threads i).rpc = (s.optee.threads i).rpc) :
    OpteeInv { s with optee := optee } :=
  ⟨fun i hi => h.waits i ((hrpc i).symm.trans hi), fun i hi => (hrpc i).trans (h.forged i hi)⟩

theorem handleOpteeRpc_rpc {s : OpteeState k} {r : CoreRegs × OpteeState k}
    (h : handleOpteeRpc regs s = some r) (i : Fin k) :
    (r.2.threads i).rpc = if (regs.gpr 3).toNat = i then
      if waitQueueRequest regs s = .sleep then opteeRpcFuncDummy else regs.gpr 0
      else (s.threads i).rpc := by
  obtain ⟨j, hj, hspec⟩ := handleOpteeRpc_spec h
  rw [hj]
  have hself : ∀ thread : OpteeThread, (Function.update s.threads j thread i).rpc =
      if (j : ℕ) = i then thread.rpc else (s.threads i).rpc := by
    intro thread
    by_cases hij : i = j
    · rw [hij, Function.update_self, if_pos rfl]
    · rw [Function.update_of_ne hij, if_neg fun hval => hij (Fin.ext hval.symm)]
  rcases hspec with ⟨hother, hthreads⟩ | ⟨hsleep, -, hthreads⟩ | ⟨m, hwake, threads, hask, hthreads⟩
  · have hawake : WaitQueueRequest.other ≠ .sleep := by simp
    rw [hthreads, hself, hother, if_neg hawake]
  · rw [hthreads, hself, if_pos hsleep]
  · -- waking another thread up leaves its procedure alone
    have hkeep : (r.2.threads i).rpc = (threads i).rpc := by
      rw [hthreads]
      by_cases him : i = m
      · rw [him, Function.update_self]
      · rw [Function.update_of_ne him]
    have hawake : WaitQueueRequest.wake m ≠ .sleep := by simp
    rw [hkeep, hask, hself, hwake, if_neg hawake]

theorem gpr_zero_of_sleep {s : OpteeState k} (h : waitQueueRequest regs s = .sleep) :
    regs.gpr 0 = opteeRpcFuncCmd := by
  rw [waitQueueRequest] at h
  split at h
  · cases h
  · split_ifs at h with hcmd
    exact hcmd.1

theorem OpteeInv.smc (h : OpteeInv s)
    (hstep : opteeStep conf s (.smc vmid regs mem world) = some t) : OpteeInv t := by
  obtain ⟨r, hr, rfl⟩ := Option.map_eq_some_iff.mp hstep
  rw [opteeSmcEntry] at hr
  split_ifs at hr with hshm hret
  · obtain ⟨r', hr', rfl⟩ := Option.map_eq_some_iff.mp hr
    rw [if_neg (by simp)]
    refine h.of_rpc fun i => ?_
    rw [handleOpteeGetShmConfig_threads hr']
    rfl
  · obtain ⟨i, hi, hspec⟩ := handleOpteeReturnFromRpc_spec hr
    rcases hspec with ⟨-, -, rfl⟩ | ⟨-, hon, ⟨thread, hgone, hthreads⟩, -⟩
    · rw [if_neg (by simp)]
      exact h.of_rpc fun _ => rfl
    · rw [if_pos ⟨hret, hon⟩]
      have hdummy : thread.rpc ≠ opteeRpcFuncDummy := by
        rw [hgone]
        decide
      constructor
      · intro j hj
        by_cases hji : j = i
        · rw [hji] at hj
          dsimp only at hj
          rw [hthreads, Function.update_self] at hj
          exact absurd hj hdummy
        · have hval : (regs.gpr 3).toNat ≠ j := fun hval => hji (Fin.ext (hval.symm.trans hi))
          dsimp only [OpteeTrace.returned] at hj ⊢
          rw [hthreads, Function.update_of_ne hji] at hj
          rw [if_neg hval, if_neg hval]
          exact h.waits j hj
      · intro j hj
        dsimp only [OpteeTrace.returned] at hj ⊢
        by_cases hval : (regs.gpr 3).toNat = j
        · rw [if_pos hval] at hj
          cases hj
        · rw [if_neg hval] at hj
          rw [hthreads,
            Function.update_of_ne fun hji => hval (hi.trans (congrArg Fin.val hji).symm)]
          exact h.forged j hj
  · rw [Option.some.injEq] at hr
    rw [← hr, if_neg fun hall => hret hall.1]
    exact h.of_rpc fun _ => rfl

/-- So does an answer, unless it is a command for a thread without a message. -/
theorem OpteeInv.answer (h : OpteeInv s) (hgood : ¬ BadValue s (.answer regs mem))
    (hstep : opteeStep conf s (.answer regs mem) = some t) : OpteeInv t := by
  rw [opteeStep] at hstep
  split_ifs at hstep with hrpc
  · obtain ⟨r, hr, rfl⟩ := Option.map_eq_some_iff.mp hstep
    have hproc := handleOpteeRpc_rpc hr
    constructor
    · intro i hi
      dsimp only [OpteeTrace.asked] at hi ⊢
      rw [hproc] at hi
      by_cases hval : (regs.gpr 3).toNat = i
      · rw [if_pos hval] at hi ⊢
        by_cases hsleep : waitQueueRequest regs (s.opteeAt mem) = .sleep
        · refine Or.inl ?_
          by_contra hnone
          refine hgood ⟨hrpc, Or.inr ⟨i, hval, gpr_zero_of_sleep hsleep, Or.inl ?_⟩⟩
          exact Bool.not_eq_true _ ▸ hnone
        · rw [if_neg hsleep] at hi
          exact Or.inr (beq_iff_eq.mpr hi)
      · rw [if_neg hval] at hi ⊢
        exact h.waits i hi
    · intro i hi
      dsimp only [OpteeTrace.asked] at hi ⊢
      rw [hproc]
      by_cases hval : (regs.gpr 3).toNat = i
      · rw [if_pos hval] at hi ⊢
        split_ifs
        · rfl
        · exact beq_iff_eq.mp hi
      · rw [if_neg hval] at hi ⊢
        exact h.forged i hi
  · rw [Option.some.injEq] at hstep
    rw [← hstep]
    exact h.of_rpc fun _ => rfl

/-! ## Which values are bad -/

theorem has_val {i : Fin k} : s.Has i ↔ s.hasMsg i = true := by
  refine ⟨?_, fun h => ⟨i, rfl, h⟩⟩
  rintro ⟨j, hj, h⟩
  rwa [Fin.ext hj]

theorem not_allowed_msg_val {i : Fin k} :
    ¬ OpteeAccess.Allowed s (.msg i) ↔ s.hasMsg i = false := by
  rw [OpteeAccess.Allowed, has_val, Bool.not_eq_true]

theorem not_allowed_thread {i : ℕ} : ¬ OpteeAccess.Allowed s (.thread i) ↔ k ≤ i := Nat.not_lt

theorem overreaches_cons {access : OpteeAccess} {rest : List OpteeAccess} :
    (∃ a ∈ access :: rest, ¬ a.Allowed s) ↔
      ¬ access.Allowed s ∨ ∃ a ∈ rest, ¬ a.Allowed s := by
  simp only [List.mem_cons, exists_eq_or_imp]

theorem overreaches_nil : ¬ ∃ a ∈ ([] : List OpteeAccess), ¬ a.Allowed s := by
  rintro ⟨a, ha, -⟩
  exact absurd ha List.not_mem_nil

theorem exists_val_iff {n : ℕ} {i : Fin k} (h : n = i) {p : Fin k → Prop} :
    (k ≤ n ∨ ∃ j : Fin k, n = j ∧ p j) ↔ p i := by
  constructor
  · rintro (hout | ⟨j, hj, hp⟩)
    · rw [h] at hout
      exact absurd i.isLt (Nat.not_lt_of_le hout)
    · rwa [Fin.ext (h.symm.trans hj)]
  · exact fun hp => Or.inr ⟨i, h, hp⟩

/-- Under the invariant a return reaches for no message unless the secure world has meddled. -/
theorem OpteeInv.overreaches_smc_iff (h : OpteeInv s) :
    Overreaches s (.smc vmid regs mem world) ↔ BadValue s (.smc vmid regs mem world) := by
  rw [Overreaches, opteeAccesses, BadValue]
  by_cases hret : regs.gpr 0 = opteeSmcReturnFromRpc
  · rw [if_pos hret, returnFromRpcAccesses, overreaches_cons, not_allowed_thread,
      and_iff_right hret]
    rcases thread_cases k (regs.gpr 3).toNat with ⟨i, hi⟩ | hout
    · rw [exists_val_iff hi, hi, or_iff_right (Nat.not_le_of_lt i.isLt), Cells.get_val]
      dsimp only
      by_cases hwaits : ((s.opteeAt mem).threads i).rpc = opteeRpcFuncDummy ∧
          ((s.opteeAt mem).threads i).isSleep = false
      · rw [if_pos hwaits, overreaches_cons, or_iff_left overreaches_nil, not_allowed_msg_val]
        refine ⟨fun hnone => ⟨?_, hwaits.2, hnone⟩, fun hbad => hbad.2.2⟩
        refine (h.waits i hwaits.1).resolve_left ?_
        rw [hnone]
        exact Bool.false_ne_true
      · rw [if_neg hwaits]
        exact iff_of_false overreaches_nil fun hbad => hwaits ⟨h.forged i hbad.1, hbad.2.1⟩
    · exact iff_of_true (Or.inl hout) (Or.inl hout)
  · rw [if_neg hret]
    exact iff_of_false overreaches_nil fun hbad => hret hbad.1

theorem overreaches_answer_iff :
    Overreaches s (.answer regs mem) ↔ BadValue s (.answer regs mem) := by
  rw [Overreaches, opteeAccesses, BadValue]
  by_cases hrpc : opteeSmcRetIsRpc (regs.gpr 0) = true
  · rw [if_pos hrpc, rpcAccesses, overreaches_cons, not_allowed_thread, and_iff_right hrpc]
    rcases thread_cases k (regs.gpr 3).toNat with ⟨i, hi⟩ | hout
    · rw [exists_val_iff hi, hi, or_iff_right (Nat.not_le_of_lt i.isLt), Cells.get_val]
      dsimp only
      by_cases hcmd : regs.gpr 0 = opteeRpcFuncCmd
      · rw [if_pos hcmd, overreaches_cons, not_allowed_msg_val, and_iff_right hcmd]
        refine or_congr_right ?_
        change _ ↔ ∃ msg, deref ((s.opteeAt mem).threads i).msg = some msg ∧
          msgCmd msg (s.opteeAt mem).mem = opteeRpcCmdWaitQueue ∧
          msgValA msg (s.opteeAt mem).mem ≠ 0 ∧ k ≤ (msgValB msg (s.opteeAt mem).mem).toNat
        cases deref ((s.opteeAt mem).threads i).msg with
        | none =>
            refine iff_of_false overreaches_nil ?_
            rintro ⟨msg, hmsg, -⟩
            cases hmsg
        | some msg =>
            dsimp only
            by_cases hwake : msgCmd msg (s.opteeAt mem).mem = opteeRpcCmdWaitQueue ∧
                msgValA msg (s.opteeAt mem).mem ≠ 0
            · rw [if_pos hwake, overreaches_cons, or_iff_left overreaches_nil, not_allowed_thread]
              constructor
              · exact fun hfar => ⟨msg, rfl, hwake.1, hwake.2, hfar⟩
              · rintro ⟨msg', hmsg, -, -, hfar⟩
                rwa [Option.some.inj hmsg]
            · rw [if_neg hwake]
              refine iff_of_false overreaches_nil ?_
              rintro ⟨msg', hmsg, hqueue, hval, -⟩
              rw [← Option.some.inj hmsg] at hqueue hval
              exact hwake ⟨hqueue, hval⟩
      · rw [if_neg hcmd]
        exact iff_of_false overreaches_nil fun hbad => hcmd hbad.1
    · exact iff_of_true (Or.inl hout) (Or.inl hout)
  · rw [if_neg hrpc]
    exact iff_of_false overreaches_nil fun hbad => hrpc hbad.1

/-! ## Every sequence of calls and answers -/

/-- For every sequence of calls by the guests and of answers of the secure world, with any number
of threads: the mediator stays within its array and the messages that the threads have, exactly if
no guest and no answer comes with a value that is bad. -/
theorem optee_accesses_allowed_iff (conf : OpteeConf) (mem : PhysMem) (events : List OpteeEvent) :
    ¬ Happened (opteeStep conf) Overreaches (OpteeTrace.init mem : OpteeTrace k) events ↔
      ¬ Happened (opteeStep conf) BadValue (OpteeTrace.init mem : OpteeTrace k) events := by
  refine not_congr (happened_congr (opteeInv_init mem) ?_ ?_)
  · intro s e _ hs
    cases e with
    | smc vmid regs mem world => exact hs.overreaches_smc_iff
    | answer regs mem => exact overreaches_answer_iff
  · intro s e _ t hs hgood hstep
    cases e with
    | smc vmid regs mem world => exact hs.smc hstep
    | answer regs mem => exact hs.answer hgood hstep

/-- A guest returns from a remote procedure with the number of threads as the thread. -/
theorem guest_leaves_threads :
    ¬ ∀ (conf : OpteeConf) (mem : PhysMem) (events : List OpteeEvent),
      ¬ Happened (opteeStep conf) Overreaches (OpteeTrace.init mem : OpteeTrace 2) events := by
  intro h
  have hbad : BadValue (OpteeTrace.init (queueMem 0 0) : OpteeTrace 2)
      (.smc 0 (opteeRegs opteeSmcReturnFromRpc 0 2) (queueMem 0 0) fun _ mem =>
        (⟨0, 0, 0, 0⟩, mem)) := ⟨rfl, Or.inl (Nat.le_refl 2)⟩
  exact h ⟨2, 0, fun _ => 0⟩ (queueMem 0 0) [_]
    (Or.inl ((opteeInv_init _).overreaches_smc_iff.mpr hbad))

end KHypervisor
