import KHypervisor.Arch.Registers
import KHypervisor.Lib.Cells
import KHypervisor.Paging.Table
import Mathlib.Data.Fin.VecNotation

/-!
# The OP-TEE mediator

The calls of the virtual machines to the trusted OS pass through `handle_optee_smc`. Two of them
are not simply handed on: `GET_SHM_CONFIG` is answered with a slice of the shared memory, and
`RETURN_FROM_RPC` is held back while the thread waits. An answer of the secure world that asks for
a remote procedure is looked at before the virtual machine sees it.

The messages lie in the physical memory, where the virtual machines and the secure world write
them, at the addresses that the virtual machines hand over.
-/

namespace KHypervisor

/-- `OPTEE_SMC_GET_SHM_CONFIG`. -/
def opteeSmcGetShmConfig : U32 := 0xb2000007

/-- `OPTEE_SMC_RETURN_FROM_RPC`. -/
def opteeSmcReturnFromRpc : U32 := 0x32000003

/-- `OPTEE_SMC_RET_OK`. -/
def opteeSmcRetOk : U32 := 0

/-- `OPTEE_SMC_RET_UNKNOWN_FUNC`. -/
def opteeSmcRetUnknownFunc : U32 := 0xffffffff

/-- `OPTEE_RPC_PREFIX`. -/
def opteeRpcMask : U32 := 0xffff0000

/-- `OPTEE_RPC_FUNC_ALLOC`. -/
def opteeRpcFuncAlloc : U32 := 0xffff0000

/-- `OPTEE_RPC_FUNC_FREE`. -/
def opteeRpcFuncFree : U32 := 0xffff0002

/-- `OPTEE_RPC_FUNC_CMD`. -/
def opteeRpcFuncCmd : U32 := 0xffff0005

/-- `OPTEE_RPC_FUNC_DUMMY`. -/
def opteeRpcFuncDummy : U32 := 0xfffffff0

/-- `OPTEE_RPC_CMD_WAIT_QUEUE`. -/
def opteeRpcCmdWaitQueue : U32 := 4

/-- `OPTEE_SMC_RET_IS_RPC`. -/
def opteeSmcRetIsRpc (ret : U32) : Bool :=
  ret != opteeSmcRetUnknownFunc && ret &&& opteeRpcMask == opteeRpcMask

/-- The member `MT_WRITEBACK_RW_ALLOC` of `attr_indx_t`. -/
def mtWritebackRwAlloc : U8 := 6

/-- `MEMATTR_NORMAL_WT_CACHEABLE`. -/
def memattrNormalWtCacheable : U8 := 0xA

/-- `struct optee_thread`. -/
structure OpteeThread where
  rpc : U32
  isSleep : Bool
  msg : U32
deriving DecidableEq

/-- `struct optee_shm`. -/
structure OpteeShm where
  base : U32
  size : U32
  cached : U32
deriving DecidableEq

/-- `struct arm_smccc_res`. -/
structure ArmSmcccRes where
  a0 : U32
  a1 : U32
  a2 : U32
  a3 : U32

/-- The secure world answers a call with eight arguments, and may write to the memory. -/
abbrev SecureWorld := (Fin 8 → U32) → PhysMem → ArmSmcccRes × PhysMem

/-- What the configuration fixes: `CONFIG_NR_VMS`, the value of `HTTBR`, and the tables of the
virtual machines. -/
structure OpteeConf where
  nrVms : U32
  httbr : U64
  vmemBase : VmId → U32

/-- The static variables of `optee.c`, for `k` threads, and the memory. -/
structure OpteeState (k : ℕ) where
  threads : Fin k → OpteeThread
  shm : OpteeShm
  mem : PhysMem

/-- An assignment to `regs->gpr[i]`. -/
def CoreRegs.putGpr (i : Fin 13) (x : U32) (regs : CoreRegs) : CoreRegs :=
  { regs with gpr := Function.update regs.gpr i x }

/-- `arm_smccc_smc`, whose result is stored over the first four registers. -/
def armSmcccSmc (smc : SecureWorld) (a : Fin 8 → U32) (regs : CoreRegs) (mem : PhysMem) :
    CoreRegs × PhysMem :=
  let res := (smc a mem).1
  let regs := regs.putGpr 0 res.a0
  let regs := regs.putGpr 1 res.a1
  let regs := regs.putGpr 2 res.a2
  (regs.putGpr 3 res.a3, (smc a mem).2)

theorem armSmcccSmc_gpr_one (smc : SecureWorld) (a : Fin 8 → U32) (regs : CoreRegs)
    (mem : PhysMem) : (armSmcccSmc smc a regs mem).1.gpr 1 = (smc a mem).1.a1 := rfl

theorem armSmcccSmc_gpr_two (smc : SecureWorld) (a : Fin 8 → U32) (regs : CoreRegs)
    (mem : PhysMem) : (armSmcccSmc smc a regs mem).1.gpr 2 = (smc a mem).1.a2 := rfl

/-! ## Messages

The members of `struct optee_msg_arg` at their offsets from the start of the message. -/

/-- `msg->cmd`. -/
def msgCmd (msg : U32) (mem : PhysMem) : U32 := ByteMemory.read32 mem.bytes (physAddr msg)

/-- `msg->ret`. -/
def msgRet (msg : U32) (mem : PhysMem) : U32 := ByteMemory.read32 mem.bytes (physAddr (msg + 20))

/-- An assignment to `msg->ret`. -/
def setMsgRet (msg ret : U32) (mem : PhysMem) : PhysMem :=
  { mem with bytes := ByteMemory.write32 mem.bytes (physAddr (msg + 20)) ret }

/-- `msg->params[0].u.val.a`. -/
def msgValA (msg : U32) (mem : PhysMem) : U64 := ByteMemory.read64 mem.bytes (physAddr (msg + 40))

/-- `msg->params[0].u.val.b`. -/
def msgValB (msg : U32) (mem : PhysMem) : U64 := ByteMemory.read64 mem.bytes (physAddr (msg + 48))

@[simp]
theorem msgRet_setMsgRet (msg ret : U32) (mem : PhysMem) :
    msgRet msg (setMsgRet msg ret mem) = ret :=
  ByteMemory.read32_write32_same (by omega) _ _ _

/-- The address that a pointer holds, unless it is `NULL`. -/
def deref (p : U32) : Option U32 := if p = 0 then none else some p

/-! ## The handlers

Accesses beyond the array of threads and through `NULL` have no result. -/

variable {k : ℕ}

/-- An assignment to `threads[i]`. -/
def OpteeState.setThread (s : OpteeState k) (i : ℕ) (thread : OpteeThread) :
    Option (OpteeState k) :=
  (Cells.set s.threads i thread).map fun threads => { s with threads := threads }

theorem OpteeState.setThread_val (s : OpteeState k) (i : Fin k) (thread : OpteeThread) :
    s.setThread i thread = some { s with threads := Function.update s.threads i thread } := by
  rw [setThread, Cells.set_val, Option.map_some]

/-- The first part of `handle_optee_get_shm_config`: the shared memory is asked for and mapped for
the hypervisor, unless that has been done. `none` is a mapping that never ends. -/
def opteeAskShm (conf : OpteeConf) (smc : SecureWorld) (regs : CoreRegs) (s : OpteeState k) :
    Option (CoreRegs × OpteeState k) :=
  if s.shm.base = 0xFFFFFFFF then
    let r := armSmcccSmc smc ![regs.gpr 0, 0, 0, 0, 0, 0, 0, 0] regs s.mem
    let shm : OpteeShm := ⟨r.1.gpr 1, r.1.gpr 2, r.1.gpr 3⟩
    (pagingAddMapping conf.httbr shm.base shm.base mtWritebackRwAlloc shm.size r.2).map fun mem =>
      (r.1, { s with shm := shm, mem := mem })
  else some (regs, s)

/-- `handle_optee_get_shm_config`, called for the virtual machine `vmid`. -/
def handleOpteeGetShmConfig (conf : OpteeConf) (smc : SecureWorld) (vmid : VmId) (regs : CoreRegs)
    (s : OpteeState k) : Option (CoreRegs × OpteeState k) := do
  let r ← opteeAskShm conf smc regs s
  let shm := r.2.shm
  let regs := r.1.putGpr 3 shm.cached
  let regs := regs.putGpr 2 (shm.size / conf.nrVms)
  let regs := regs.putGpr 1 (shm.base + regs.gpr 2 * BitVec.ofNat 32 vmid)
  let regs := regs.putGpr 0 opteeSmcRetOk
  let mem ← pagingAddIpaMapping (conf.vmemBase vmid) shm.base shm.base memattrNormalWtCacheable 1
    shm.size r.2.mem
  some (regs, { r.2 with mem := mem })

/-- `handle_optee_return_from_rpc`; the first component says whether it returned one. -/
def handleOpteeReturnFromRpc (regs : CoreRegs) (s : OpteeState k) :
    Option (Bool × CoreRegs × OpteeState k) := do
  let threadId := (regs.gpr 3).toNat
  let thread ← Cells.get s.threads threadId
  if thread.rpc = opteeRpcFuncAlloc then
    let s ← s.setThread threadId { thread with msg := regs.gpr 2, rpc := -1 }
    some (false, regs, s)
  else if thread.rpc = opteeRpcFuncFree then
    let s ← s.setThread threadId { thread with msg := 0, rpc := -1 }
    some (false, regs, s)
  else if thread.rpc = opteeRpcFuncDummy then
    -- the thread of the normal world keeps asking until another thread wakes this one
    if thread.isSleep then some (true, regs.putGpr 0 opteeRpcFuncDummy, s)
    else
      let msg ← deref thread.msg
      let s ← { s with mem := setMsgRet msg 0 s.mem }.setThread threadId { thread with rpc := -1 }
      some (false, regs, s)
  else
    let s ← s.setThread threadId { thread with rpc := -1 }
    some (false, regs, s)

/-- `handle_optee_rpc`. -/
def handleOpteeRpc (regs : CoreRegs) (s : OpteeState k) : Option (CoreRegs × OpteeState k) := do
  let threadId := (regs.gpr 3).toNat
  let thread ← Cells.get s.threads threadId
  let thread := { thread with rpc := regs.gpr 0 }
  let s ← s.setThread threadId thread
  if thread.rpc ≠ opteeRpcFuncCmd then some (regs, s)
  else
    let msg ← deref thread.msg
    if msgCmd msg s.mem = opteeRpcCmdWaitQueue then
      if msgValA msg s.mem ≠ 0 then
        -- `OPTEE_RPC_CMD_WQ_WAKE`
        let woken := (msgValB msg s.mem).toNat
        let thread ← Cells.get s.threads woken
        let s ← s.setThread woken { thread with isSleep := false }
        some (regs, s)
      else
        -- `OPTEE_RPC_CMD_WQ_SLEEP`
        let s ← s.setThread threadId { thread with rpc := opteeRpcFuncDummy, isSleep := true }
        some (regs.putGpr 0 opteeRpcFuncDummy, s)
    else some (regs, s)

/-- The switch that `handle_optee_smc` begins with; the first component says whether the call was
answered there. -/
def opteeSmcEntry (conf : OpteeConf) (smc : SecureWorld) (vmid : VmId) (regs : CoreRegs)
    (s : OpteeState k) : Option (Bool × CoreRegs × OpteeState k) :=
  if regs.gpr 0 = opteeSmcGetShmConfig then
    (handleOpteeGetShmConfig conf smc vmid regs s).map fun r => (true, r)
  else if regs.gpr 0 = opteeSmcReturnFromRpc then handleOpteeReturnFromRpc regs s
  else some (false, regs, s)

/-- The rest of `handle_optee_smc`: the secure world is called, and its answer looked at. -/
def opteeSmcEnter (smc : SecureWorld) (regs : CoreRegs) (s : OpteeState k) :
    Option (CoreRegs × OpteeState k) :=
  let args := ![regs.gpr 0, regs.gpr 1, regs.gpr 2, regs.gpr 3, regs.gpr 4, regs.gpr 5, regs.gpr 6,
    regs.gpr 7]
  let r := armSmcccSmc smc args regs s.mem
  let s := { s with mem := r.2 }
  if opteeSmcRetIsRpc (r.1.gpr 0) then handleOpteeRpc r.1 s else some (r.1, s)

/-- `handle_optee_smc`. -/
def handleOpteeSmc (conf : OpteeConf) (smc : SecureWorld) (vmid : VmId) (regs : CoreRegs)
    (s : OpteeState k) : Option (CoreRegs × OpteeState k) := do
  let r ← opteeSmcEntry conf smc vmid regs s
  if r.1 then some r.2 else opteeSmcEnter smc r.2.1 r.2.2

end KHypervisor
