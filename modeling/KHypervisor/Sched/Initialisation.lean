import KHypervisor.Lib.FreshBlock
import KHypervisor.Sched.Policy

/-!
# The initialisation of the schedulers

`sched_init` allocates a scheduler for every processor, lets its policy initialise it and only then
assigns the core's fields. The real-time policies look their tick interval up by the number of the
processor, which is one of these fields: they find what the heap block held before.
-/

namespace KHypervisor

/-- The fields of `struct scheduler` that `sched_init` and the policies use. -/
inductive SchedField
  | id
  | pcpuid
  | currentVcpuid
  | nextVcpuid
  | currentVcpu
  | currentVm
  | standbyEntries
  | inflightEntries
  | policy
  | sd
deriving DecidableEq

/-- A `struct scheduler` on the heap: the scheduler with the fields that only `sched_init` uses. -/
structure SchedBlock (ED SD : Type) where
  id : ℕ
  policy : Option PolicyName
  s : Scheduler ED SD

/-- A scheduler for a processor with the policy `n` while it is being initialised. -/
abbrev NewSched (n : PolicyName) := FreshBlock SchedField (SchedBlock n.EntryData n.SchedData)

open FreshBlock

def assignSd {ED SD : Type} (sd : SD) (t : FreshBlock SchedField (SchedBlock ED SD)) :
    FreshBlock SchedField (SchedBlock ED SD) :=
  t.assign .sd fun b => { b with s := b.s.setSd sd }

/-- `sched_rr_init`. -/
def schedRrInitBlock (t : NewSched .rr) : NewSched .rr :=
  assignSd ⟨none, []⟩ t

/-- `sched_rm_init` and `sched_edf_init`, with their table of tick intervals. -/
def schedRtInitBlock (tickIntervalUs : PcpuId → U32)
    (t : FreshBlock SchedField (SchedBlock EntryDataRt SchedDataRt)) :
    FreshBlock SchedField (SchedBlock EntryDataRt SchedDataRt) :=
  let (pcpuid, t) := t.read .pcpuid fun b => b.s.pcpuid
  assignSd ⟨(tickIntervalUs pcpuid).setWidth 64, 0, none, [], []⟩ t

/-- `s->policy->init(s)`. -/
def policyInit (conf : SchedConf) : (n : PolicyName) → NewSched n → NewSched n
  | .rr => schedRrInitBlock
  | .rtRm => schedRtInitBlock conf.rmTickIntervalUs
  | .rtEdf => schedRtInitBlock conf.edfTickIntervalUs

/-- The turn of `sched_init` for processor `pcpu`, on the block that `malloc` returned. -/
def schedInitTurn (conf : SchedConf) (n : PolicyName) (pcpu : PcpuId)
    (block : SchedBlock n.EntryData n.SchedData) : NewSched n :=
  let t : NewSched n := alloc block
  let t := t.assign .policy fun b => { b with policy := some n }
  let t := (t.read .policy fun b => b.policy).2
  let t := policyInit conf n t
  let t := t.assign .pcpuid fun b => { b with s := { b.s with pcpuid := pcpu } }
  let t := t.assign .id fun b => { b with id := pcpu }
  let t := t.assign .currentVcpuid fun b =>
    { b with s := { b.s with currentVcpuid := vcpuidInvalid } }
  let t := t.assign .nextVcpuid fun b => { b with s := { b.s with nextVcpuid := vcpuidInvalid } }
  let t := t.assign .currentVcpu fun b => { b with s := { b.s with currentVcpu := none } }
  let t := t.assign .currentVm fun b => { b with s := { b.s with currentVm := none } }
  let t := t.assign .standbyEntries fun b => { b with s := { b.s with standbyEntries := [] } }
  let t := t.assign .inflightEntries fun b => { b with s := { b.s with inflightEntries := [] } }
  -- the two lines that are printed
  let t := (t.read .pcpuid fun b => b.s.pcpuid).2
  (t.read .pcpuid fun b => b.s.pcpuid).2

/-- `sched`, a null pointer where no scheduler has been allocated. -/
abbrev SchedTable (gPolicy : PcpuId → PolicyName) := (p : PcpuId) → Option (NewSched (gPolicy p))

/-- `sched_init`, for the blocks that `malloc` returns. -/
def schedInitAll (conf : SchedConf) (gPolicy : PcpuId → PolicyName) (nrCpus : ℕ)
    (block : (p : PcpuId) → SchedBlock (gPolicy p).EntryData (gPolicy p).SchedData) :
    SchedTable gPolicy :=
  (List.range nrCpus).foldl
    (fun sched p => Function.update sched p (some (schedInitTurn conf (gPolicy p) p (block p))))
    fun _ => none

def PolicyName.tickIntervalUs (conf : SchedConf) : PolicyName → Option (PcpuId → U32)
  | .rr => none
  | .rtRm => some conf.rmTickIntervalUs
  | .rtEdf => some conf.edfTickIntervalUs

def PolicyName.tickIntervalOf : (n : PolicyName) → n.SchedData → Option U64
  | .rr, _ => none
  | .rtRm, sd => some sd.tickIntervalUs
  | .rtEdf, sd => some sd.tickIntervalUs

def PolicyName.runqueueOf : (n : PolicyName) → n.SchedData → List EntryRef
  | .rr, sd => sd.runqueue
  | .rtRm, sd => sd.runqueue
  | .rtEdf, sd => sd.runqueue

/-- The fields that a scheduler of a real-time policy is to have. -/
structure ReadyFor (conf : SchedConf) (n : PolicyName) (pcpu : PcpuId)
    (s : Scheduler n.EntryData n.SchedData) : Prop where
  tickIntervalUs : n.tickIntervalOf s.sd = (n.tickIntervalUs conf).map fun table =>
    (table pcpu).setWidth 64
  pcpuid : s.pcpuid = pcpu
  standby : s.standbyEntries = []
  inflight : s.inflightEntries = []
  runqueue : n.runqueueOf s.sd = []

/-- A processor has a scheduler, it is ready if its policy is a real-time one, and no field of it
was read before it was assigned. -/
def Initialised (conf : SchedConf) {gPolicy : PcpuId → PolicyName} (sched : SchedTable gPolicy)
    (p : PcpuId) : Prop :=
  ∃ t, sched p = some t ∧ (gPolicy p ≠ .rr → ReadyFor conf (gPolicy p) p t.block.s) ∧ t.stale = []

/-! ## A turn -/

section Turn

variable (conf : SchedConf) (n : PolicyName) (pcpu : PcpuId)
  (block : SchedBlock n.EntryData n.SchedData)

theorem schedInitTurn_block :
    { (schedInitTurn conf n pcpu block).block.s with nrEntries := 0 } =
      schedInit (n.policy conf) pcpu block.s := by
  cases n <;> rfl

/-- The real-time policies read the processor's number before it is there. -/
theorem schedInitTurn_stale_iff : (schedInitTurn conf n pcpu block).stale = [] ↔ n = .rr := by
  cases n with
  | rr =>
      simp [schedInitTurn, policyInit, schedRrInitBlock, assignSd]
  | rtRm =>
      simp [schedInitTurn, policyInit, schedRtInitBlock, assignSd]
  | rtEdf =>
      simp [schedInitTurn, policyInit, schedRtInitBlock, assignSd]

/-- What the heap block held for the number of the processor decides the tick interval. -/
theorem schedInitTurn_tickInterval :
    n.tickIntervalOf (schedInitTurn conf n pcpu block).block.s.sd =
      (n.tickIntervalUs conf).map fun table => (table block.s.pcpuid).setWidth 64 := by
  cases n <;> rfl

theorem schedInitTurn_ready_iff :
    ReadyFor conf n pcpu (schedInitTurn conf n pcpu block).block.s ↔
      ∀ table, n.tickIntervalUs conf = some table → table block.s.pcpuid = table pcpu := by
  have hcore : ∀ s, s = (schedInitTurn conf n pcpu block).block.s →
      s.pcpuid = pcpu ∧ s.standbyEntries = [] ∧ s.inflightEntries = [] ∧
        n.runqueueOf s.sd = [] := by
    rintro s rfl
    cases n <;> exact ⟨rfl, rfl, rfl, rfl⟩
  obtain ⟨hpcpuid, hstandby, hinflight, hrunqueue⟩ := hcore _ rfl
  have hticks : ReadyFor conf n pcpu (schedInitTurn conf n pcpu block).block.s ↔
      n.tickIntervalOf (schedInitTurn conf n pcpu block).block.s.sd =
        (n.tickIntervalUs conf).map fun table => (table pcpu).setWidth 64 :=
    ⟨ReadyFor.tickIntervalUs, fun h => ⟨h, hpcpuid, hstandby, hinflight, hrunqueue⟩⟩
  rw [hticks, schedInitTurn_tickInterval]
  cases n.tickIntervalUs conf with
  | none => simp
  | some table =>
      rw [Option.map_some, Option.map_some, Option.some.injEq]
      constructor
      · rintro h table' htable
        obtain rfl := Option.some.inj htable
        have hnat := congrArg BitVec.toNat h
        rw [BitVec.toNat_setWidth_of_le (by decide),
          BitVec.toNat_setWidth_of_le (by decide)] at hnat
        exact BitVec.eq_of_toNat_eq hnat
      · intro h
        rw [h table rfl]

end Turn

/-! ## The loop -/

section Loop

variable {gPolicy : PcpuId → PolicyName}
  (turn : (p : PcpuId) → NewSched (gPolicy p))

theorem foldl_turns (n : ℕ) (p : PcpuId) :
    (List.range n).foldl (fun (sched : SchedTable gPolicy) p =>
      Function.update sched p (some (turn p))) (fun _ => none) p =
      if p < n then some (turn p) else none := by
  induction n with
  | zero => rfl
  | succ n ih =>
      rw [List.range_succ, List.foldl_append, List.foldl_cons, List.foldl_nil]
      by_cases hp : p = n
      · subst hp
        rw [Function.update_self, if_pos (Nat.lt_succ_self p)]
      · rw [Function.update_of_ne hp, ih]
        simp only [Nat.lt_succ_iff_lt_or_eq, hp, or_false]

end Loop

section All

variable (conf : SchedConf) (gPolicy : PcpuId → PolicyName) (nrCpus : ℕ)
  (block : (p : PcpuId) → SchedBlock (gPolicy p).EntryData (gPolicy p).SchedData)

theorem schedInitAll_eq (p : PcpuId) :
    schedInitAll conf gPolicy nrCpus block p =
      if p < nrCpus then some (schedInitTurn conf (gPolicy p) p (block p)) else none :=
  foldl_turns (fun p => schedInitTurn conf (gPolicy p) p (block p)) nrCpus p

/-- The schedulers are those that the core was modelled with. -/
theorem schedInitAll_block (p : PcpuId) :
    (schedInitAll conf gPolicy nrCpus block p).map (fun t => { t.block.s with nrEntries := 0 }) =
      if p < nrCpus then some (schedInit ((gPolicy p).policy conf) p (block p).s) else none := by
  rw [schedInitAll_eq, apply_ite (Option.map _), Option.map_some, Option.map_none,
    schedInitTurn_block]

theorem initialised_iff {p : PcpuId} (hp : p < nrCpus) :
    Initialised conf (schedInitAll conf gPolicy nrCpus block) p ↔ gPolicy p = .rr := by
  rw [Initialised, schedInitAll_eq, if_pos hp]
  constructor
  · rintro ⟨t, ht, -, hstale⟩
    obtain rfl := Option.some.inj ht
    exact (schedInitTurn_stale_iff conf _ p (block p)).mp hstale
  · intro hrr
    refine ⟨_, rfl, ?_, ?_⟩
    · intro hne
      exact absurd hrr hne
    · exact (schedInitTurn_stale_iff conf _ p (block p)).mpr hrr

/-- All schedulers are initialised as they should if and only if no processor has a real-time
policy. -/
theorem schedInit_initialised_iff :
    (∀ p < nrCpus, Initialised conf (schedInitAll conf gPolicy nrCpus block) p) ↔
      ∀ p < nrCpus, gPolicy p = .rr :=
  forall₂_congr fun _ hp => initialised_iff conf gPolicy nrCpus block hp

/-- Rate monotonic on a heap block that held the number of another processor. -/
theorem schedInit_takes_other_tick_interval :
    ¬ ∀ (conf : SchedConf) (nrCpus : ℕ) (block : PcpuId → SchedBlock EntryDataRt SchedDataRt),
      ∀ p < nrCpus, Initialised conf
        (schedInitAll conf (fun _ => PolicyName.rtRm) nrCpus block) p := by
  intro h
  have htwo := h
    { (default : SchedConf) with rmTickIntervalUs := fun p => if p = 0 then 100 else 200 } 1
    (fun _ => ⟨0, none, { (default : SchedulerRt) with pcpuid := 1 }⟩) 0 Nat.zero_lt_one
  obtain ⟨t, ht, hready, -⟩ := htwo
  obtain rfl := Option.some.inj ht
  have htick : some (200 : U64) = some 100 := (hready PolicyName.noConfusion).tickIntervalUs
  exact absurd htick (by decide)

/-- All schedulers of the real-time policies are ready if and only if the table has the same
interval for the number that the heap block held. -/
theorem schedInit_ready_iff :
    (∀ p < nrCpus, ∃ t, schedInitAll conf gPolicy nrCpus block p = some t ∧
        ReadyFor conf (gPolicy p) p t.block.s) ↔
      ∀ p < nrCpus, ∀ table, (gPolicy p).tickIntervalUs conf = some table →
        table (block p).s.pcpuid = table p := by
  refine forall₂_congr fun p hp => ?_
  rw [schedInitAll_eq, if_pos hp, ← schedInitTurn_ready_iff]
  constructor
  · rintro ⟨t, ht, hready⟩
    obtain rfl := Option.some.inj ht
    exact hready
  · intro hready
    exact ⟨_, rfl, hready⟩

end All

end KHypervisor
