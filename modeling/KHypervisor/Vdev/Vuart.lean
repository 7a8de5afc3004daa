import KHypervisor.Lib.Lists
import KHypervisor.Lib.Run
import KHypervisor.Vdev.Instances
import KHypervisor.Vdev.SpiForwarding

/-!
# The console

All machines share one physical UART through `vdev_pl01x.c`, and one of them owns it. A read of the
data register takes the next character from the device before it looks at who reads; a machine that
does not own the console gets a stale word instead, and the character is gone. The console reaches
its owner exactly if nobody else reads the data register (`console_input_iff`).
-/

namespace KHypervisor

open Run

/-- `UARTDR`. -/
def uartdr : U32 := 0x000

/-- `UARTRSR_UARTECR`. -/
def uartrsrUartecr : U32 := 0x004

/-- `UARTILPR`. -/
def uartilpr : U32 := 0x020

/-- `UARTIBRD`. -/
def uartibrd : U32 := 0x024

/-- `UARTCR`. -/
def uartcr : U32 := 0x030

/-- `UARTMSC`. -/
def uartmsc : U32 := 0x038

/-- `UARTPERIPHID`. -/
def uartperiphid (x : U32) : U32 := 0xFE0 + 4 * x

/-- `UARTCELLID`. -/
def uartcellid (x : U32) : U32 := 0xFF0 + 4 * x

/-- The size of `prompt`. -/
def promptSize : ℕ := 32

/-- `memset` and `sprintf` with `PROMPT_MSG`. -/
def promptMsg (owner : ℕ) : List U32 :=
  let msg := ("[vm " ++ toString owner ++ "] ").toList.map fun c => BitVec.ofNat 32 c.toNat
  msg ++ List.replicate (promptSize - msg.length) 0

/-- What the physical UART answers: the characters that arrive at its data register, of which every
read takes the next one, and what the register at another offset has after these writes. -/
structure UartDevice where
  chars : ℕ → U32
  register : List (U32 × U32) → U32 → U32

/-- The static variables of `vdev_pl01x.c`, the private states of the machines' devices, how many
characters have been taken from the UART, and what has been written to it at which offset. -/
structure Console where
  ownerId : VmId
  prompt : List U32
  vuart : VmId → Pl01x
  taken : ℕ
  writes : List (U32 × U32)

/-- After `vdev_pl01x_init`, with the states that `malloc` returned. -/
def Console.init (vuart : VmId → Pl01x) : Console := ⟨0, promptMsg 0, vuart, 0, []⟩

/-- `writel` to the UART. -/
def Console.writel (offset value : U32) (s : Console) : Console :=
  { s with writes := s.writes ++ [(offset, value)] }

def Console.setVuart (vmid : VmId) (vuart : Pl01x) (s : Console) : Console :=
  { s with vuart := Function.update s.vuart vmid vuart }

/-- The offset in the UART that `vuart_read` reads for any other than the data register. -/
def vuartReadOffset (offset : U32) : U32 :=
  if uartperiphid 0 ≤ offset ∧ offset ≤ uartperiphid 3 then
    uartperiphid ((offset - uartperiphid 0) >>> 2)
  else if uartcellid 0 ≤ offset ∧ offset ≤ uartcellid 3 then
    uartcellid ((offset - uartcellid 0) >>> 2)
  else offset

/-- `vuart_read` by a virtual processor of machine `vmid`, with `CONFIG_NR_VMS` machines. -/
def vuartRead (nrVms : ℕ) (uart : UartDevice) (vmid : VmId) (offset : U32) (s : Console) :
    U32 × Console :=
  if offset = uartdr then
    let data := uart.chars s.taken
    let s := { s with taken := s.taken + 1 }
    if vmid = s.ownerId then
      if data = 25 then
        let owner := (s.ownerId + 1) % nrVms
        (data, { s with ownerId := owner, prompt := promptMsg owner })
      else (data, s)
    else ((s.vuart vmid).uartdr, s)
  else (uart.register s.writes (vuartReadOffset offset), s)

/-- What `vuart_write` writes to the data register for the owner, with the prompt after a line
feed. -/
def Console.echo (value : U32) (s : Console) : Console :=
  let s := s.writel uartdr value
  if value = 10 then s.prompt.foldl (fun s c => s.writel uartdr c) s else s

/-- `vuart_write` by a virtual processor of machine `vmid`; the first component says whether it
calls `forward_irq`. -/
def vuartWrite (vmid : VmId) (offset value : U32) (s : Console) : Bool × Console :=
  let vuart := s.vuart vmid
  if offset = uartdr then
    let s := s.setVuart vmid { vuart with uartdr := value }
    (false, if vmid = s.ownerId then s.echo value else s)
  else if offset = uartrsrUartecr then
    (false, (s.setVuart vmid { vuart with uartrsrUartecr := value }).writel offset value)
  else if offset = uartilpr then
    (false, (s.setVuart vmid { vuart with uartilpr := value }).writel offset value)
  else if offset = uartibrd then
    (false, (s.setVuart vmid { vuart with uartibrd := value }).writel offset value)
  else if offset = uartcr then
    (false, (s.setVuart vmid { vuart with uartcr := value }).writel offset value)
  else if offset = uartmsc then
    (decide (value = 0x70 ∧ vmid ≠ s.ownerId),
      (s.setVuart vmid { vuart with uartmsc := value }).writel offset value)
  else (false, s.writel offset value)

/-! ## Accesses -/

inductive UartAccess
  | read (vmid : VmId) (offset : U32)
  | write (vmid : VmId) (offset value : U32)

variable (nrVms : ℕ) (uart : UartDevice)

def Console.after (s : Console) : UartAccess → Console
  | .read vmid offset => (vuartRead nrVms uart vmid offset s).2
  | .write vmid offset value => (vuartWrite vmid offset value s).2

def consoleStep (s : Console) (a : UartAccess) : Option Console := some (s.after nrVms uart a)

def Console.afterAll (s : Console) (accesses : List UartAccess) : Console :=
  accesses.foldl (Console.after nrVms uart) s

def delivery (s : Console) : UartAccess → List U32
  | .read vmid offset =>
      if offset = uartdr ∧ vmid = s.ownerId then [(vuartRead nrVms uart vmid offset s).1] else []
  | .write _ _ _ => []

def deliveries : Console → List UartAccess → List U32
  | _, [] => []
  | s, a :: accesses =>
      delivery nrVms uart s a ++ deliveries (s.after nrVms uart a) accesses

def Console.consumed (s : Console) : List U32 := (List.range s.taken).map uart.chars

/-- The accesses have returned to the owners all that has been taken from the UART, in order, and
the console has been passed on once for every character 25 among it. -/
structure ReachesOwner (s : Console) (accesses : List UartAccess) : Prop where
  whole : deliveries nrVms uart s accesses = (s.afterAll nrVms uart accesses).consumed uart
  owner : (s.afterAll nrVms uart accesses).ownerId =
    (deliveries nrVms uart s accesses).count 25 % nrVms

/-- Somebody reads the data register who does not own the console. -/
def ForeignRead (s : Console) : UartAccess → Prop
  | .read vmid offset => offset = uartdr ∧ vmid ≠ s.ownerId
  | .write _ _ _ => False

def dataReader : UartAccess → Option VmId
  | .read vmid offset => if offset = uartdr then some vmid else none
  | .write _ _ _ => none

/-- The machine whose turn it is to read the character `n`: the console has gone round with the
characters before. -/
def turnOf (n : ℕ) : VmId := ((List.range n).map uart.chars).count 25 % nrVms

/-! ## One access -/

variable {nrVms : ℕ} {uart : UartDevice} {s : Console} {vmid : VmId} {offset value : U32}
  {a : UartAccess} {accesses : List UartAccess}

structure SameConsole (s s' : Console) : Prop where
  taken : s'.taken = s.taken
  ownerId : s'.ownerId = s.ownerId

theorem SameConsole.trans {s s' s'' : Console} (h : SameConsole s s') (h' : SameConsole s' s'') :
    SameConsole s s'' := ⟨h'.taken.trans h.taken, h'.ownerId.trans h.ownerId⟩

theorem sameConsole_writel (offset value : U32) (s : Console) :
    SameConsole s (s.writel offset value) := ⟨rfl, rfl⟩

theorem sameConsole_setVuart (vmid : VmId) (vuart : Pl01x) (s : Console) :
    SameConsole s (s.setVuart vmid vuart) := ⟨rfl, rfl⟩

theorem sameConsole_foldl (cs : List U32) (s : Console) :
    SameConsole s (cs.foldl (fun s c => s.writel uartdr c) s) := by
  induction cs generalizing s with
  | nil => exact ⟨rfl, rfl⟩
  | cons c cs ih => exact (sameConsole_writel uartdr c s).trans (ih (s.writel uartdr c))

theorem sameConsole_echo (value : U32) (s : Console) : SameConsole s (s.echo value) := by
  have hwrite := sameConsole_writel uartdr value s
  rw [Console.echo]
  split
  · exact hwrite.trans (sameConsole_foldl _ _)
  · exact hwrite

theorem sameConsole_vuartWrite (vmid : VmId) (offset value : U32) (s : Console) :
    SameConsole s (vuartWrite vmid offset value s).2 := by
  rw [vuartWrite]
  by_cases hdr : offset = uartdr
  · rw [if_pos hdr]
    dsimp only
    split
    · exact (sameConsole_setVuart _ _ s).trans (sameConsole_echo value _)
    · exact sameConsole_setVuart _ _ s
  · rw [if_neg hdr]
    split_ifs
    all_goals exact ⟨rfl, rfl⟩

theorem not_foreignRead_of_other (h : dataReader a = none) : ¬ ForeignRead s a := by
  cases a with
  | read vmid offset =>
      rintro ⟨rfl, -⟩
      cases h
  | write vmid offset value => exact id

variable (nrVms uart) in
theorem after_other (h : dataReader a = none) :
    SameConsole s (s.after nrVms uart a) ∧ delivery nrVms uart s a = [] := by
  cases a with
  | read vmid offset =>
      have hoffset : offset ≠ uartdr := by
        rintro rfl
        cases h
      rw [Console.after, vuartRead, if_neg hoffset]
      exact ⟨⟨rfl, rfl⟩, if_neg fun hall => hoffset hall.1⟩
  | write vmid offset value => exact ⟨sameConsole_vuartWrite vmid offset value s, rfl⟩

variable (nrVms uart) in
theorem after_read_owner (h : vmid = s.ownerId) :
    (s.after nrVms uart (.read vmid uartdr)).taken = s.taken + 1 ∧
      (s.after nrVms uart (.read vmid uartdr)).ownerId =
        (if uart.chars s.taken = 25 then (s.ownerId + 1) % nrVms else s.ownerId) ∧
      delivery nrVms uart s (.read vmid uartdr) = [uart.chars s.taken] := by
  have hdelivery : delivery nrVms uart s (.read vmid uartdr) =
      [(vuartRead nrVms uart vmid uartdr s).1] := if_pos ⟨rfl, h⟩
  rw [hdelivery, Console.after, vuartRead, if_pos rfl]
  dsimp only
  rw [if_pos h]
  by_cases hchar : uart.chars s.taken = 25
  · rw [if_pos hchar, if_pos hchar]
    exact ⟨rfl, rfl, rfl⟩
  · rw [if_neg hchar, if_neg hchar]
    exact ⟨rfl, rfl, rfl⟩

variable (nrVms uart) in
theorem after_read_foreign (h : vmid ≠ s.ownerId) :
    (s.after nrVms uart (.read vmid uartdr)).taken = s.taken + 1 ∧
      (s.after nrVms uart (.read vmid uartdr)).ownerId = s.ownerId ∧
      delivery nrVms uart s (.read vmid uartdr) = [] := by
  rw [Console.after, vuartRead, if_pos rfl]
  dsimp only
  rw [if_neg h]
  exact ⟨rfl, rfl, if_neg fun hall => h hall.2⟩

theorem access_cases (s : Console) (a : UartAccess) :
    dataReader a = none ∨ (∃ vmid, a = .read vmid uartdr ∧ vmid = s.ownerId) ∨
      ∃ vmid, a = .read vmid uartdr ∧ vmid ≠ s.ownerId := by
  cases a with
  | read vmid offset =>
      by_cases hoffset : offset = uartdr
      · subst hoffset
        by_cases howner : vmid = s.ownerId
        · exact Or.inr (Or.inl ⟨vmid, rfl, howner⟩)
        · exact Or.inr (Or.inr ⟨vmid, rfl, howner⟩)
      · exact Or.inl (if_neg hoffset)
  | write vmid offset value => exact Or.inl rfl

theorem dataReader_read (vmid : VmId) : dataReader (.read vmid uartdr) = some vmid := by
  rw [dataReader, if_pos rfl]

/-! ## Every interleaving -/

theorem afterAll_concat (s : Console) (accesses : List UartAccess) (a : UartAccess) :
    s.afterAll nrVms uart (accesses ++ [a]) =
      (s.afterAll nrVms uart accesses).after nrVms uart a := by
  rw [Console.afterAll, List.foldl_concat]
  rfl

theorem deliveries_concat (s : Console) (accesses : List UartAccess) (a : UartAccess) :
    deliveries nrVms uart s (accesses ++ [a]) =
      deliveries nrVms uart s accesses ++
        delivery nrVms uart (s.afterAll nrVms uart accesses) a := by
  induction accesses generalizing s with
  | nil => exact List.append_nil _
  | cons a' accesses ih =>
      rw [List.cons_append, deliveries, deliveries, ih, List.append_assoc]
      rfl

theorem run_consoleStep (s : Console) (accesses : List UartAccess) :
    run (consoleStep nrVms uart) s accesses = some (s.afterAll nrVms uart accesses) := by
  induction accesses generalizing s with
  | nil => rfl
  | cons a accesses ih => exact ih (s.after nrVms uart a)

theorem happened_foreignRead_concat (s : Console) (accesses : List UartAccess) (a : UartAccess) :
    Happened (consoleStep nrVms uart) ForeignRead s (accesses ++ [a]) ↔
      Happened (consoleStep nrVms uart) ForeignRead s accesses ∨
        ForeignRead (s.afterAll nrVms uart accesses) a :=
  happened_concat (run_consoleStep s accesses) a

theorem consumed_succ {s' : Console} (h : s'.taken = s.taken + 1) :
    s'.consumed uart = s.consumed uart ++ [uart.chars s.taken] := by
  rw [Console.consumed, Console.consumed, h, List.range_succ, List.map_append, List.map_singleton]

theorem SameConsole.consumed {s s' : Console} (h : SameConsole s s') :
    s'.consumed uart = s.consumed uart := by
  rw [Console.consumed, Console.consumed, h.taken]

variable (nrVms uart) in
theorem length_deliveries_le (s : Console) (accesses : List UartAccess) :
    (deliveries nrVms uart s accesses).length ≤ (s.afterAll nrVms uart accesses).taken := by
  induction accesses using List.reverseRecOn with
  | nil => exact Nat.zero_le _
  | append_singleton accesses a ih =>
      rw [deliveries_concat, List.length_append, afterAll_concat]
      rcases access_cases (s.afterAll nrVms uart accesses) a with
        hother | ⟨vmid, rfl, howner⟩ | ⟨vmid, rfl, hforeign⟩
      · obtain ⟨hsame, hnone⟩ := after_other nrVms uart hother
        rw [hnone, hsame.taken]
        exact ih
      · obtain ⟨htaken, -, hone⟩ := after_read_owner nrVms uart howner
        rw [hone, htaken]
        exact Nat.succ_le_succ ih
      · obtain ⟨htaken, -, hnone⟩ := after_read_foreign nrVms uart hforeign
        rw [hnone, htaken]
        exact Nat.le_succ_of_le ih

/-- All that has been taken has been returned to the owners exactly if nobody else has read. -/
theorem deliveries_eq_consumed_iff (hs : s.taken = 0) :
    deliveries nrVms uart s accesses = (s.afterAll nrVms uart accesses).consumed uart ↔
      ¬ Happened (consoleStep nrVms uart) ForeignRead s accesses := by
  induction accesses using List.reverseRecOn with
  | nil =>
      have hnone : s.consumed uart = [] := by
        rw [Console.consumed, hs, List.range_zero, List.map_nil]
      exact iff_of_true hnone.symm id
  | append_singleton accesses a ih =>
      rw [deliveries_concat, afterAll_concat, happened_foreignRead_concat]
      rcases access_cases (s.afterAll nrVms uart accesses) a with
        hother | ⟨vmid, rfl, howner⟩ | ⟨vmid, rfl, hforeign⟩
      · obtain ⟨hsame, hnone⟩ := after_other nrVms uart hother
        rw [hnone, List.append_nil, hsame.consumed, ih,
          or_iff_left (not_foreignRead_of_other hother)]
      · obtain ⟨htaken, -, hone⟩ := after_read_owner nrVms uart howner
        have hown : ¬ ForeignRead (s.afterAll nrVms uart accesses) (.read vmid uartdr) :=
          fun hforeign => hforeign.2 howner
        rw [hone, consumed_succ htaken, List.append_left_inj, ih, or_iff_left hown]
      · obtain ⟨htaken, -, hnone⟩ := after_read_foreign nrVms uart hforeign
        have hshort := length_deliveries_le nrVms uart s accesses
        refine iff_of_false (fun hall => ?_) fun hnever => hnever (Or.inr ⟨rfl, hforeign⟩)
        have hlength := congrArg List.length hall
        rw [hnone, List.append_nil, Console.consumed, List.length_map, List.length_range, htaken]
          at hlength
        omega

/-- The console goes round with the characters that its owners have read. -/
theorem ownerId_afterAll (hs : s.ownerId = 0) :
    (s.afterAll nrVms uart accesses).ownerId =
      (deliveries nrVms uart s accesses).count 25 % nrVms := by
  induction accesses using List.reverseRecOn with
  | nil => exact hs.trans (Nat.zero_mod nrVms).symm
  | append_singleton accesses a ih =>
      rw [deliveries_concat, afterAll_concat]
      rcases access_cases (s.afterAll nrVms uart accesses) a with
        hother | ⟨vmid, rfl, howner⟩ | ⟨vmid, rfl, hforeign⟩
      · obtain ⟨hsame, hnone⟩ := after_other nrVms uart hother
        rw [hnone, List.append_nil, hsame.ownerId, ih]
      · obtain ⟨-, hnext, hone⟩ := after_read_owner nrVms uart howner
        rw [hnext, hone, ih, List.count_append]
        by_cases hchar : uart.chars (s.afterAll nrVms uart accesses).taken = 25
        · rw [if_pos hchar, hchar, List.count_singleton_self, Nat.mod_add_mod]
        · rw [if_neg hchar, List.count_singleton, if_neg fun h => hchar (beq_iff_eq.mp h),
            Nat.add_zero]
      · obtain ⟨-, hnext, hnone⟩ := after_read_foreign nrVms uart hforeign
        rw [hnext, hnone, List.append_nil, ih]

theorem taken_afterAll (hs : s.taken = 0) :
    (s.afterAll nrVms uart accesses).taken = (accesses.filterMap dataReader).length := by
  induction accesses using List.reverseRecOn with
  | nil => exact hs
  | append_singleton accesses a ih =>
      rw [afterAll_concat, List.filterMap_append, List.length_append, ← ih]
      rcases access_cases (s.afterAll nrVms uart accesses) a with
        hother | ⟨vmid, rfl, howner⟩ | ⟨vmid, rfl, hforeign⟩
      · rw [(after_other nrVms uart hother).1.taken, List.filterMap_cons_none hother,
          List.filterMap_nil, List.length_nil, Nat.add_zero]
      · rw [(after_read_owner nrVms uart howner).1, List.filterMap_cons_some (dataReader_read vmid),
          List.filterMap_nil, List.length_singleton]
      · rw [(after_read_foreign nrVms uart hforeign).1,
          List.filterMap_cons_some (dataReader_read vmid), List.filterMap_nil,
          List.length_singleton]

/-- Nobody reads out of turn exactly if the readers of the data register come as the characters
say. -/
theorem not_foreignRead_iff (hs : s.taken = 0) (howner : s.ownerId = 0) :
    ¬ Happened (consoleStep nrVms uart) ForeignRead s accesses ↔
      ∀ n vmid, (accesses.filterMap dataReader)[n]? = some vmid → vmid = turnOf nrVms uart n := by
  induction accesses using List.reverseRecOn with
  | nil =>
      refine iff_of_true id fun n vmid h => ?_
      rw [List.filterMap_nil, List.getElem?_nil] at h
      cases h
  | append_singleton accesses a ih =>
      rw [happened_foreignRead_concat, not_or, List.filterMap_append]
      cases hreader : dataReader a with
      | none =>
          rw [List.filterMap_cons_none hreader, List.filterMap_nil, List.append_nil, ← ih]
          exact and_iff_left (not_foreignRead_of_other hreader)
      | some vmid =>
          rw [List.filterMap_cons_some hreader, List.filterMap_nil,
            Lists.forall_getElem?_concat, ← ih]
          refine and_congr_right fun hnever => ?_
          have hturn : (s.afterAll nrVms uart accesses).ownerId =
              turnOf nrVms uart (accesses.filterMap dataReader).length := by
            rw [ownerId_afterAll howner, (deliveries_eq_consumed_iff hs).mpr hnever,
              Console.consumed, taken_afterAll hs, turnOf]
          rw [← hturn]
          rcases access_cases (s.afterAll nrVms uart accesses) a with
            hother | ⟨vmid', rfl, hown⟩ | ⟨vmid', rfl, hforeign⟩
          · rw [hreader] at hother
            cases hother
          · rw [dataReader_read, Option.some.injEq] at hreader
            rw [← hreader]
            exact iff_of_true (fun h => h.2 hown) hown
          · rw [dataReader_read, Option.some.injEq] at hreader
            rw [← hreader]
            exact iff_of_false (fun h => h ⟨rfl, hforeign⟩) hforeign

/-- For every stream of characters and every interleaving of accesses by any machines, with any
number of them: the owners of the console get the whole stream, exactly if every read of the data
register is by the machine whose turn it is after as many characters 25 as have come. -/
theorem console_input_iff (nrVms : ℕ) (uart : UartDevice) (vuart : VmId → Pl01x)
    (accesses : List UartAccess) :
    ReachesOwner nrVms uart (Console.init vuart) accesses ↔
      ∀ n vmid, (accesses.filterMap dataReader)[n]? = some vmid → vmid = turnOf nrVms uart n := by
  rw [← not_foreignRead_iff (s := Console.init vuart) rfl rfl, ← deliveries_eq_consumed_iff rfl]
  exact ⟨ReachesOwner.whole, fun hwhole => ⟨hwhole, ownerId_afterAll rfl⟩⟩

/-- A UART that the letter `a` arrives at again and again. -/
def letterA : UartDevice := ⟨fun _ => 97, fun _ _ => 0⟩

def blankPl01x : Pl01x := ⟨0, 0, 0, 0, 0, 0, 0, 0, 0, 0, 0, 0, 0, 0, fun _ => 0, fun _ => 0⟩

/-- The machine 1 reads the data register while the machine 0 owns the console. -/
theorem input_lost_to_other :
    ¬ ∀ (nrVms : ℕ) (uart : UartDevice) (vuart : VmId → Pl01x) (accesses : List UartAccess),
      ReachesOwner nrVms uart (Console.init vuart) accesses := by
  intro h
  have hwhole := (h 2 letterA (fun _ => blankPl01x) [.read 1 uartdr]).whole
  exact absurd hwhole (by decide)

end KHypervisor
