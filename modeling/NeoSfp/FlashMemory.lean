import NeoSfp.BulkTrace
import NeoSfp.ProgramBytes

/-!
# The driver as a memory

Whoever calls the driver need not know of frames, latches or polling. A run of its
public functions is a run over the contents alone: programs clear bits, erases set
them, and reads return what is there.
-/

namespace NeoSfp

open Checked NorFlash

/-! ## What the functions mean -/

/-- What an operation does to the contents, with the data at the start of a buffer. -/
def FlashOp.apply (chip : Chip) (pData : Memory) : FlashOp → Cells → Cells
  | .erase a => NorFlash.erase chip.sector a
  | .program a size => NorFlash.program chip.page a ((List.range size).map pData)

/-- What operations of the driver do to the contents, one after the other. -/
def applyOps (chip : Chip) (pData : Memory) (ops : List FlashOp) (cells : Cells) : Cells :=
  ops.foldl (fun cells op => op.apply chip pData cells) cells

/-- A buffer whose first bytes have been read from an address on. -/
def readInto (pData : Memory) (a count : Nat) (cells : Cells) : Memory := fun i =>
  if i < count then cells ((a + i) % 2 ^ 24) else pData i

/-- The 24 bits of an address that are sent. -/
def cellOf (addr : UInt32) : Nat := addr.toNat % 2 ^ 24

/-- What a caller gets back. -/
inductive Reply where
  | done
  | status (rc : Int)
  | byte (b : UInt8)
  | page (pData : Memory)

/-- What a call does to the contents, and its reply. -/
def FlashCall.meaning (chip : Chip) : FlashCall → StateM Cells Reply
  | .check => pure (.status 0)
  | .readByte addr => do
    let cells ← get
    pure (.byte (cells (cellOf addr)))
  | .readPage addr length pData => do
    let cells ← get
    pure (.page (readInto pData (cellOf addr) (min length spiFlashPageSize) cells))
  | .writeByte addr wdata => do
    modify (program chip.page (cellOf addr) [wdata])
    pure .done
  | .writeWord addr wdata => do
    modify (program chip.page (cellOf addr) (wordBytes wdata))
    pure .done
  | .writePage addr length pData => do
    modify (program chip.page (cellOf addr)
      ((List.range (min length spiFlashPageSize)).map pData))
    pure .done
  | .writeHuge _ _ none => pure .done
  | .writeHuge addr length (some pData) =>
    if length = 0 then pure .done
    else do
      modify (applyOps chip pData (.erase (cellOf addr) ::
        turnOps (pagesLeft (min length (spiFlashBlockSize * 10)) 0) addr addr))
      pure .done
  | .eraseSector addr => do
    modify (erase chip.sector (cellOf addr))
    pure .done

/-- What a sequence of calls does to the contents, and its replies. -/
def meanings (chip : Chip) (calls : List FlashCall) : StateM Cells (List Reply) :=
  calls.mapM (FlashCall.meaning chip)

/-! ## The functions with their replies -/

section

variable {σ : Type} (spi : Slave σ) (polls : Nat)

/-- A call of the driver with its reply. -/
def FlashCall.serve : FlashCall → Driver σ Reply
  | .check => do
    let rc ← neoSpiFlashCheck spi
    pure (.status rc)
  | .readByte addr => do
    let b ← neoSpiFlashReadByte spi addr
    pure (.byte b)
  | .readPage addr length pData => do
    let pData ← neoSpiFlashReadPage spi addr length pData
    pure (.page pData)
  | .writeByte addr wdata => do
    neoSpiFlashWriteByte spi polls addr wdata
    pure .done
  | .writeWord addr wdata => do
    neoSpiFlashWriteWord spi polls addr wdata
    pure .done
  | .writePage addr length pData => do
    neoSpiFlashWritePage spi polls addr length pData
    pure .done
  | .writeHuge addr length pData => do
    neoSpiFlashWriteHuge spi polls addr length pData
    pure .done
  | .eraseSector addr => do
    neoSpiFlashEraseSector spi polls addr
    pure .done

/-- Calls of the driver in a row, with their replies. -/
def serveCalls : List FlashCall → Driver σ (List Reply)
  | [] => pure []
  | call :: calls => do
    let reply ← call.serve spi polls
    let replies ← serveCalls calls
    pure (reply :: replies)

end

/-! ## Refinement -/

section

variable {chip : Chip} {polls : Nat} {α β : Type}

/-- From a chip at rest the computation returns with the chip at rest; its value and
the contents it leaves are as meant. It begins at most `bound` programs and erases. -/
def Refines (chip : Chip) (polls bound : Nat) (program : Driver Flash α) (meaning : StateM Cells α) :
    Prop :=
  ∀ cells wel begun calls reads, Patient chip.delay (begun + bound) polls →
    ∃ (wel' : Bool) (begun' : Nat) (calls' : List SpiCall) (reads' : List Nat),
      program ⟨rest cells wel begun, calls, reads⟩ =
        .ok (meaning cells).1 ⟨rest (meaning cells).2 wel' begun', calls', reads'⟩ ∧
      begun' ≤ begun + bound

/-- A value is what it means, and nothing is changed. -/
theorem refines_pure (value : α) : Refines chip polls 0 (pure value) (pure value) := by
  intro cells wel begun calls reads patient
  exact ⟨wel, begun, calls, reads, rfl, Nat.le_refl _⟩

/-- Computations that do what is meant do it one behind the other, in the contents that
the first one leaves. As in a session, the operations begun add up. -/
theorem refines_bind {m n : Nat} {first : Driver Flash α} {next : α → Driver Flash β}
    {meaning : StateM Cells α} {meaning' : α → StateM Cells β}
    (head : Refines chip polls m first meaning)
    (tail : ∀ value, Refines chip polls n (next value) (meaning' value)) :
    Refines chip polls (m + n) (first >>= next) (meaning >>= meaning') := by
  intro cells wel begun calls reads patient
  obtain ⟨wel', begun', calls', reads', ran, count⟩ :=
    head cells wel begun calls reads (patient_less (by omega) patient)
  obtain ⟨wel'', begun'', calls'', reads'', ran', count'⟩ :=
    tail _ _ wel' begun' calls' reads' (patient_less (by omega) patient)
  refine ⟨wel'', begun'', calls'', reads'', ?_, by omega⟩
  rw [Run.bind_apply, ran, Run.andThen_ok, ran']
  rfl

/-- The bound on the operations may be larger than what is begun. -/
theorem refines_more {m n : Nat} {program : Driver Flash α} {meaning : StateM Cells α} (less : m ≤ n)
    (refines : Refines chip polls m program meaning) : Refines chip polls n program meaning := by
  intro cells wel begun calls reads patient
  obtain ⟨wel', begun', calls', reads', ran, count⟩ :=
    refines cells wel begun calls reads (patient_less (by omega) patient)
  exact ⟨wel', begun', calls', reads', ran, by omega⟩

/-- A program or an erase, by what its frame does to the contents: the polls behind it
bring the chip to rest and leave the contents alone. -/
theorem refines_operation {program : Driver Flash PUnit} {frame : List UInt8} {change : Cells → Cells}
    {places : List Nat} (changes : ∀ cells begun, (operated chip cells begun frame).cells = change cells)
    (ends : ∀ cells wel begun calls reads, (operated chip cells begun frame).busy < polls →
      program ⟨rest cells wel begun, calls, reads⟩ =
        .ok ⟨⟩ (ended (operated chip cells begun frame) frame calls (reads ++ places))) :
    Refines chip polls 1 program (modify change) := by
  intro cells wel begun calls reads patient
  have enough : chip.delay begun < polls := patient begun (Nat.lt_succ_self _)
  have counted := operated_begins chip cells begun frame
  have ran := ends cells wel begun calls reads (by omega)
  rw [ended, changes] at ran
  exact ⟨_, _, _, _, ran, by omega⟩

/-- The frame of an erase erases the sector of the 24 bits of the address that it
carries. -/
theorem operated_erase (addr : UInt32) (cells : Cells) (begun : Nat) :
    (operated chip cells begun (0x20 :: (addrBytes addr ++ []))).cells =
      erase chip.sector (cellOf addr) cells := by
  simp [operated, Chip.execute, addrBytes, address_bytes, Chip.begins, cellOf]

/-- The driver's erase is the erase of the sector. -/
theorem refines_eraseSector (addr : UInt32) : Refines chip polls 1
    (neoSpiFlashEraseSector chip.slave polls addr) (modify (erase chip.sector (cellOf addr))) :=
  refines_operation (operated_erase addr) fun _ _ _ _ _ enough =>
    neoSpiFlashEraseSector_ends chip polls addr enough

/-- The driver's write of a byte programs this one byte. -/
theorem refines_writeByte (addr : UInt32) (wdata : UInt8) : Refines chip polls 1
    (neoSpiFlashWriteByte chip.slave polls addr wdata)
    (modify (program chip.page (cellOf addr) [wdata])) :=
  refines_operation (fun _ _ => operated_program addr [wdata]) fun _ _ _ _ _ enough =>
    neoSpiFlashWriteByte_ends chip polls addr wdata enough

/-- The driver's write of a word programs its four bytes from the address on, around the
end of the page if need be. -/
theorem refines_writeWord (addr wdata : UInt32) : Refines chip polls 1
    (neoSpiFlashWriteWord chip.slave polls addr wdata)
    (modify (program chip.page (cellOf addr) (wordBytes wdata))) :=
  refines_operation (fun _ _ => operated_program addr (wordBytes wdata)) fun _ _ _ _ _ enough =>
    neoSpiFlashWriteWord_ends chip polls addr wdata enough

/-- The driver's write of a page programs as many bytes as it is given, at most a
page. -/
theorem refines_writePage (chip : Chip) (polls : Nat) (addr : UInt32) (length : Nat)
    (pData : Memory) : Refines chip polls 1
    (neoSpiFlashWritePage chip.slave polls addr length pData)
    (modify (program chip.page (cellOf addr)
      ((List.range (min length spiFlashPageSize)).map pData))) :=
  refines_operation (fun _ _ => operated_program addr _) fun _ _ _ _ _ enough =>
    neoSpiFlashWritePage_ends chip polls addr length pData enough

/-! ## Reads -/

/-- The bytes received are those from the address on, around the end of the chip. By
induction on those left to be read: each zero sent brings the next cell. -/
theorem receiveLoop_reads (chip : Chip) (addr : UInt32) (left i : Nat) (cells : Cells) (wel : Bool) (begun : Nat)
    (calls : List SpiCall) (reads : List Nat) (pData : Memory) :
    ∃ calls', receiveLoop chip.slave left i (readInto pData (cellOf addr) i cells)
        ⟨⟨cells, wel, 0, begun, some (0x03 :: (addrBytes addr ++ List.replicate i 0))⟩, calls, reads⟩ =
      .ok (readInto pData (cellOf addr) (i + left) cells)
        ⟨⟨cells, wel, 0, begun, some (0x03 :: (addrBytes addr ++ List.replicate (i + left) 0))⟩,
          calls', reads⟩ := by
  induction left generalizing i calls with
  | zero => exact ⟨calls, rfl⟩
  | succ left ih =>
    have other : ¬ (0x03 : UInt8) = 0x05 := by decide
    have answered : Chip.answer
        ⟨cells, wel, 0, begun, some (0x03 :: (addrBytes addr ++ List.replicate i 0))⟩
        (0x03 :: (addrBytes addr ++ List.replicate i 0)) = cells ((cellOf addr + i) % 2 ^ 24) := by
      simp [Chip.answer, addrBytes, address_bytes, cellOf]
    have stored : Function.update (readInto pData (cellOf addr) i cells) i
        (cells ((cellOf addr + i) % 2 ^ 24)) = readInto pData (cellOf addr) (i + 1) cells := by
      funext k
      by_cases here : k = i
      · subst here
        rw [Function.update_self, readInto, if_pos (Nat.lt_succ_self k)]
      · have same : k < i + 1 ↔ k < i := by omega
        rw [Function.update_of_ne here, readInto, readInto]
        simp only [same]
    rw [receiveLoop, Run.bind_apply, spiTransfer_apply, Run.andThen_ok, answered, stored]
    simp only [List.head?_cons, Option.some.injEq, if_neg other, List.cons_append,
      List.append_assoc, ← List.replicate_succ']
    have moved : i + (left + 1) = i + 1 + left := by omega
    rw [moved]
    exact ih (i + 1) _

/-- The driver's read fills the buffer from the cells and leaves the contents alone. -/
theorem refines_readPage (addr : UInt32) (length : Nat) (pData : Memory) : Refines chip polls 0
    (neoSpiFlashReadPage chip.slave addr length pData) (do
      let cells ← get
      pure (readInto pData (cellOf addr) (min length spiFlashPageSize) cells)) := by
  intro cells wel begun calls reads patient
  have opcode : ∃ op arg, [(0x03 : UInt8)] = op :: arg ∧ op ≠ 0x05 := ⟨0x03, [], rfl, by decide⟩
  have start : readInto pData (cellOf addr) 0 cells = pData := by
    funext i
    rw [readInto, if_neg (Nat.not_lt_zero i)]
  obtain ⟨calls', received⟩ := receiveLoop_reads chip addr (min length spiFlashPageSize) 0 cells
    wel begun (calls ++ [.csEn] ++ [.transfer 0x03] ++ (addrBytes addr).map .transfer) reads pData
  rw [start, List.replicate_zero, List.append_nil, Nat.zero_add] at received
  refine ⟨wel, begun, calls' ++ [.csDis], reads, ?_, Nat.le_refl _⟩
  change _ = Outcome.ok (readInto pData (cellOf addr) (min length spiFlashPageSize) cells)
    (⟨rest cells wel begun, calls' ++ [.csDis], reads⟩ : DriverState Flash)
  simp only [neoSpiFlashReadPage, rest, Run.bind_apply, spiCsEn_apply, Run.andThen_ok,
    spiTransfer_apply, List.head?_nil, List.nil_append, SpiFlashCmd.code, reduceCtorEq, if_false,
    neoSpiFlashWriteAddr_apply chip addr _ opcode, List.singleton_append, received,
    spiCsDis_apply, Run.pure_apply]
  simp [Chip.execute]

/-- The driver's read of a byte returns the cell. -/
theorem refines_readByte (addr : UInt32) : Refines chip polls 0
    (neoSpiFlashReadByte chip.slave addr) (do
      let cells ← get
      pure (cells (cellOf addr))) := by
  intro cells wel begun calls reads patient
  have opcode : ∃ op arg, [(0x03 : UInt8)] = op :: arg ∧ op ≠ 0x05 := ⟨0x03, [], rfl, by decide⟩
  refine ⟨wel, begun, calls ++ frameCalls (0x03 :: (addrBytes addr ++ [0])), reads, ?_, Nat.le_refl _⟩
  change _ = Outcome.ok (cells (cellOf addr))
    (⟨rest cells wel begun, calls ++ frameCalls (0x03 :: (addrBytes addr ++ [0])), reads⟩ :
      DriverState Flash)
  simp only [neoSpiFlashReadByte, rest, Run.bind_apply, spiCsEn_apply, Run.andThen_ok,
    spiTransfer_apply, List.head?_nil, List.nil_append, SpiFlashCmd.code, reduceCtorEq, if_false,
    neoSpiFlashWriteAddr_apply chip addr _ opcode, List.head?_cons, List.cons_append,
    Option.some.injEq, show ¬ (0x03 : UInt8) = 0x05 by decide, spiCsDis_apply, Run.pure_apply]
  simp [Chip.execute, frameCalls, Chip.answer, addrBytes, address_bytes, cellOf]

/-- The bit of the status that the check looks at is the latch. -/
theorem status_latch (cells : Cells) (wel : Bool) (begun : Nat) :
    latched (status (rest cells wel begun)) = wel := by
  cases wel <;> simp [latched, status, rest]

/-- A chip that keeps the latch as it is told passes the check: behind the write-enable
the status shows the latch, behind the write-disable it does not. -/
theorem refines_check : Refines chip polls 0 (neoSpiFlashCheck chip.slave) (pure 0) := by
  intro cells wel begun calls reads patient
  have woken : ∀ calls, neoSpiFlashWakeup chip.slave ⟨rest cells wel begun, calls, reads⟩ =
      .ok ⟨⟩ ⟨rest cells wel begun, calls ++ frameCalls [0xAB], reads⟩ := by
    intro calls
    simp [neoSpiFlashWakeup, command, rest, SpiFlashCmd.code, Chip.execute, frameCalls]
  have disabled : ∀ calls, neoSpiFlashWriteDisable chip.slave ⟨rest cells true begun, calls, reads⟩ =
      .ok ⟨⟩ ⟨rest cells false begun, calls ++ frameCalls [0x04], reads⟩ := by
    intro calls
    simp [neoSpiFlashWriteDisable, command, rest, SpiFlashCmd.code, Chip.execute, frameCalls]
  have read : ∀ wel calls, neoSpiFlashReadStatus chip.slave ⟨rest cells wel begun, calls, reads⟩ =
      .ok (status (rest cells wel begun))
        ⟨rest cells wel begun, calls ++ frameCalls [0x05, 0], reads⟩ :=
    fun wel calls => neoSpiFlashReadStatus_apply chip
  refine ⟨false, begun, calls ++ frameCalls [0xAB] ++ frameCalls [0x06] ++ frameCalls [0x05, 0] ++
    frameCalls [0x04] ++ frameCalls [0x05, 0], reads, ?_, Nat.le_refl _⟩
  change _ = Outcome.ok 0 _
  rw [neoSpiFlashCheck]
  simp only [Run.bind_apply, woken, neoSpiFlashWriteEnable_apply, read, disabled, Run.andThen_ok,
    Run.ite_apply, status_latch, if_true, Run.pure_apply, Bool.false_eq_true, if_false]
  rfl

/-- The operations of a bulk write change the contents one behind the other. -/
theorem applyOps_cons (pData : Memory) (op : FlashOp) (ops : List FlashOp) :
    (modify (applyOps chip pData (op :: ops)) : StateM Cells PUnit) =
      modify (op.apply chip pData) >>= fun _ => modify (applyOps chip pData ops) := rfl

/-- A page of the bulk write is a page's program of its data. -/
theorem refines_turn (addr : UInt32) (pData : Memory) : Refines chip polls 1
    (neoSpiFlashWritePage chip.slave polls addr spiFlashPageSize pData)
    (modify ((FlashOp.program (addr.toNat % 2 ^ 24) spiFlashPageSize).apply chip pData)) := by
  have page := refines_writePage chip polls addr spiFlashPageSize pData
  rw [Nat.min_self] at page
  exact page

/-- An erase ahead of a page returns the address of the last erase, by which the next
turn decides. -/
theorem refines_ahead (addr : UInt32) (pData : Memory) : Refines chip polls 1
    (neoSpiFlashEraseSector chip.slave polls addr >>= fun _ => pure addr)
    (modify ((FlashOp.erase (addr.toNat % 2 ^ 24)).apply chip pData) >>= fun _ => pure addr) :=
  refines_bind (refines_eraseSector addr) fun _ => refines_pure addr

/-- The bulk write takes its turns on the contents. By induction on the turns that are
left, with the erase of a turn where the loop makes one. -/
theorem refines_hugeLoop (chip : Chip) (polls length : Nat) (pData : Memory) (fuel : Nat)
    (addr prev : UInt32) (j : Nat)
    (near : j < length + 256) (enough : length + 256 ≤ j + 256 * fuel) :
    Refines chip polls (2 * fuel) (hugeLoop chip.slave polls length pData fuel addr prev j)
      (modify (applyOps chip pData (turnOps (pagesLeft length j) addr prev))) := by
  induction fuel generalizing addr prev j with
  | zero => omega
  | succ fuel ih =>
    rw [hugeLoop]
    by_cases more : j < length
    · have left : pagesLeft length j = pagesLeft length (j + spiFlashPageSize) + 1 := by
        simp only [pagesLeft, spiFlashPageSize]
        omega
      have onward : ∀ prev, Refines chip polls (1 + 2 * fuel)
          (neoSpiFlashWritePage chip.slave polls addr spiFlashPageSize pData >>= fun _ =>
            hugeLoop chip.slave polls length pData fuel (addr + UInt32.ofNat spiFlashPageSize) prev
              (j + spiFlashPageSize))
          (modify (applyOps chip pData (.program (addr.toNat % 2 ^ 24) spiFlashPageSize ::
            turnOps (pagesLeft length (j + spiFlashPageSize))
              (addr + UInt32.ofNat spiFlashPageSize) prev))) := by
        intro prev
        rw [applyOps_cons]
        refine refines_bind (refines_turn addr pData) fun _ => ih _ prev _ ?_ ?_
        · simp only [spiFlashPageSize]
          omega
        · simp only [spiFlashPageSize]
          omega
      rw [if_pos more, left, turnOps]
      unfold eraseAhead
      split
      · rw [applyOps_cons]
        exact refines_more (show 1 + (1 + 2 * fuel) ≤ 2 * (fuel + 1) by omega)
          (refines_bind (refines_ahead addr pData) fun prev => onward prev)
      · exact refines_more (show 0 + (1 + 2 * fuel) ≤ 2 * (fuel + 1) by omega)
          (refines_bind (refines_pure prev) fun prev => onward prev)
    · have none : pagesLeft length j = 0 := by
        rw [pagesLeft]
        omega
      rw [if_neg more, none]
      exact refines_more (Nat.zero_le _) (refines_pure _)

/-- The bulk write is an erase and its turns, of at most ten blocks; without data it
leaves the contents alone. -/
theorem refines_writeHuge (addr : UInt32) (length : Nat) (pData : Option Memory) :
    Refines chip polls (1 + 2 * (min length (spiFlashBlockSize * 10) + 1) + 0)
      (neoSpiFlashWriteHuge chip.slave polls addr length pData >>= fun _ => pure .done)
      (FlashCall.meaning chip (.writeHuge addr length pData)) := by
  cases pData with
  | none => exact refines_more (Nat.zero_le _) (refines_pure _)
  | some pData =>
    rw [neoSpiFlashWriteHuge, FlashCall.meaning]
    split
    · exact refines_more (Nat.zero_le _) (refines_pure _)
    · have loop := refines_hugeLoop chip polls (min length (spiFlashBlockSize * 10)) pData
        (min length (spiFlashBlockSize * 10) + 1) addr addr 0 (by omega) (by omega)
      rw [applyOps_cons]
      exact refines_bind (refines_bind (refines_eraseSector addr) fun _ => loop) fun _ => refines_pure _

/-- Every public function does to the contents, and replies, what it means. -/
theorem refines_call (chip : Chip) (polls : Nat) (call : FlashCall) :
    Refines chip polls call.operations (call.serve chip.slave polls) (call.meaning chip) := by
  cases call with
  | check => exact refines_bind refines_check fun rc => refines_pure _
  | readByte addr => exact refines_bind (refines_readByte addr) fun b => refines_pure _
  | readPage addr length pData =>
    exact refines_bind (refines_readPage addr length pData) fun pData => refines_pure _
  | writeByte addr wdata => exact refines_bind (refines_writeByte addr wdata) fun _ => refines_pure _
  | writeWord addr wdata => exact refines_bind (refines_writeWord addr wdata) fun _ => refines_pure _
  | writePage addr length pData =>
    exact refines_bind (refines_writePage chip polls addr length pData) fun _ => refines_pure _
  | writeHuge addr length pData => exact refines_writeHuge addr length pData
  | eraseSector addr => exact refines_bind (refines_eraseSector addr) fun _ => refines_pure _

/-- Any sequence of calls means its calls one behind the other, by induction on them. -/
theorem refines_calls (chip : Chip) (polls : Nat) (calls : List FlashCall) : Refines chip polls
    (calls.map FlashCall.operations).sum (serveCalls chip.slave polls calls) (meanings chip calls) := by
  induction calls with
  | nil => exact refines_pure []
  | cons call calls ih =>
    have served := refines_bind (refines_call chip polls call) fun reply =>
      refines_bind ih fun replies => refines_pure (reply :: replies)
    rw [meanings, List.mapM_cons]
    exact served

/-- With polls enough for what it begins, a sequence of calls runs as meant from a chip
at rest, which is the refinement read at the state of a whole run. -/
theorem serveCalls_means (calls : List FlashCall) (s : DriverState Flash) (idle : Idle s.dev)
    (patient : Patient chip.delay (s.dev.begun + (calls.map FlashCall.operations).sum) polls) :
    ∃ s', serveCalls chip.slave polls calls s = .ok (meanings chip calls s.dev.cells).1 s' ∧
      s'.dev.cells = (meanings chip calls s.dev.cells).2 ∧ Idle s'.dev := by
  obtain ⟨dev, calls', reads⟩ := s
  have resting : dev = rest dev.cells dev.wel dev.begun := idle_rest idle
  obtain ⟨wel, begun, made, places, ran, -⟩ := refines_calls chip polls calls
    dev.cells dev.wel dev.begun calls' reads patient
  rw [← resting] at ran
  exact ⟨_, ran, rfl, rest_idle _ _ _⟩

end

/-- The driver is a memory. On any chip that starts at rest, and given polls enough for
its delays, every sequence of calls returns the replies and leaves the contents that it
means, and the chip at rest. Each operation refines its meaning on the contents, and the
induction is on the calls. -/
theorem serveCalls_memory (chip : Chip) (calls : List FlashCall) (s : DriverState Flash)
    (idle : Idle s.dev) :
    ∃ enough, ∀ polls ≥ enough, ∃ s',
      serveCalls chip.slave polls calls s = .ok (meanings chip calls s.dev.cells).1 s' ∧
      s'.dev.cells = (meanings chip calls s.dev.cells).2 ∧ Idle s'.dev := by
  obtain ⟨enough, patience⟩ := patient_enough chip.delay
    (s.dev.begun + (calls.map FlashCall.operations).sum)
  exact ⟨enough, fun polls large => serveCalls_means calls s idle (patience polls large)⟩

/-- A check, a byte written and the same byte read, on a blank flash. -/
theorem serveCalls_memory_blank :
    ∃ enough, ∀ polls ≥ enough, ∃ s',
      serveCalls (norChip fun _ => 3).slave polls [.check, .writeByte 7 0x5A, .readByte 7] blankFlash =
        .ok (meanings (norChip fun _ => 3) [.check, .writeByte 7 0x5A, .readByte 7]
          blankFlash.dev.cells).1 s' ∧
      s'.dev.cells = (meanings (norChip fun _ => 3) [.check, .writeByte 7 0x5A, .readByte 7]
        blankFlash.dev.cells).2 ∧ Idle s'.dev :=
  serveCalls_memory (norChip fun _ => 3) _ blankFlash (rest_idle _ _ _)

end NeoSfp
