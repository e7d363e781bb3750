import NeoSfp.FlashProtocol

/-!
# The operations of a bulk write

The frames of a bulk write, down to its erases and programs. Which they are is
fixed by the arguments: the chip only decides how often its status is read. From
there it can be told which sectors are erased in time and which bytes are touched.
-/

namespace NeoSfp

open Checked NorFlash History

/-- An erase at an address, or a program of so many bytes from one. -/
inductive FlashOp where
  | erase (a : Nat)
  | program (a size : Nat)
deriving DecidableEq, Repr

/-- The operation a frame begins. -/
def flashOp : List UInt8 → Option FlashOp
  | op :: a :: b :: c :: data =>
    if op = SpiFlashCmd.eraseSector.code then some (.erase (address a b c))
    else if op = SpiFlashCmd.pageProgram.code then some (.program (address a b c) data.length)
    else none
  | _ => none

/-! ## Operations of the driver -/

section

variable {chip : Chip} {polls : Nat} {α β : Type}

/-- From a chip at rest the computation returns with the chip at rest. Its frames
begin exactly these operations, `bound` of them at most, and it reads the buffer
at these places. -/
def Emits (chip : Chip) (polls bound : Nat) (program : Driver Flash α) (value : α)
    (ops : List FlashOp) (places : List Nat) : Prop :=
  ∀ cells wel begun calls reads, Patient chip.delay (begun + bound) polls →
    ∃ (cells' : Cells) (wel' : Bool) (begun' : Nat) (frames : List (List UInt8)),
      program ⟨rest cells wel begun, calls, reads⟩ =
        .ok value ⟨rest cells' wel' begun', calls ++ frames.flatMap frameCalls, reads ++ places⟩ ∧
      frames.filterMap flashOp = ops ∧ begun' ≤ begun + bound

/-- A computation that returns at once emits nothing and reads nothing. -/
theorem emits_pure (value : α) : Emits chip polls 0 (pure value) value [] [] := by
  intro cells wel begun calls reads patient
  exact ⟨cells, wel, begun, [], by simp, rfl, Nat.le_refl _⟩

/-- Computations in a row: their operations and their places of the buffer are joined in
order, and their bounds add up. -/
theorem emits_bind {m n : Nat} {first : Driver Flash α} {next : α → Driver Flash β} {value : α}
    {value' : β} {ops ops' : List FlashOp} {places places' : List Nat}
    (head : Emits chip polls m first value ops places)
    (tail : Emits chip polls n (next value) value' ops' places') :
    Emits chip polls (m + n) (first >>= next) value' (ops ++ ops') (places ++ places') := by
  intro cells wel begun calls reads patient
  obtain ⟨cells', wel', begun', frames, ran, emitted, count⟩ :=
    head cells wel begun calls reads (patient_less (by omega) patient)
  obtain ⟨cells'', wel'', begun'', frames', ran', emitted', count'⟩ :=
    tail cells' wel' begun' _ _ (patient_less (by omega) patient)
  refine ⟨cells'', wel'', begun'', frames ++ frames', ?_, ?_, by omega⟩
  · rw [Run.bind_apply, ran, Run.andThen_ok, ran', List.flatMap_append, List.append_assoc,
      List.append_assoc]
  · rw [List.filterMap_append, emitted, emitted']

/-- The bound on the operations may be raised, so computations of different lengths can
be put under one bound. -/
theorem emits_more {m n : Nat} {program : Driver Flash α} {value : α} {ops : List FlashOp}
    {places : List Nat} (less : m ≤ n) (emits : Emits chip polls m program value ops places) :
    Emits chip polls n program value ops places := by
  intro cells wel begun calls reads patient
  obtain ⟨cells', wel', begun', frames, ran, emitted, count⟩ :=
    emits cells wel begun calls reads (patient_less (by omega) patient)
  exact ⟨cells', wel', begun', frames, ran, emitted, by omega⟩

/-- The frames around an operation begin no other: the write-enable and the status
frames stand for no operation. -/
theorem operationFrames_op {frame : List UInt8} {op : FlashOp} (begins : flashOp frame = some op)
    (busy : Nat) : (operationFrames frame busy).filterMap flashOp = [op] := by
  have polled : (List.replicate (busy + 1) [0x05, 0]).filterMap flashOp = [] := by
    rw [List.filterMap_eq_nil_iff]
    intro frame member
    rw [List.eq_of_mem_replicate member]
    rfl
  rw [operationFrames, List.filterMap_cons_none rfl, List.filterMap_cons_some begins, polled]

/-- Whatever ends as an operation of the driver emits that one operation, at any delay
of the chip within the polls. -/
theorem emits_operation {program : Driver Flash PUnit} {frame : List UInt8} {op : FlashOp}
    {places : List Nat} (begins : flashOp frame = some op)
    (ends : ∀ cells wel begun calls reads, (operated chip cells begun frame).busy < polls →
      program ⟨rest cells wel begun, calls, reads⟩ =
        .ok ⟨⟩ (ended (operated chip cells begun frame) frame calls (reads ++ places))) :
    Emits chip polls 1 program ⟨⟩ [op] places := by
  intro cells wel begun calls reads patient
  have enough : chip.delay begun < polls := patient begun (Nat.lt_succ_self _)
  have counted := operated_begins chip cells begun frame
  have ran := ends cells wel begun calls reads (by omega)
  rw [ended, operationCalls_frames] at ran
  exact ⟨_, _, _, _, ran, operationFrames_op begins _, by omega⟩

/-- An erase emits itself, at the low 24 bits of its address, and reads nothing. -/
theorem emits_eraseSector (addr : UInt32) :
    Emits chip polls 1 (neoSpiFlashEraseSector chip.slave polls addr) ⟨⟩
      [.erase (addr.toNat % 2 ^ 24)] [] := by
  have begins : flashOp (SpiFlashCmd.eraseSector.code :: (addrBytes addr ++ [])) =
      some (.erase (addr.toNat % 2 ^ 24)) := by
    simp [flashOp, addrBytes, SpiFlashCmd.code, address_bytes]
  refine emits_operation begins ?_
  intro cells wel begun calls reads enough
  rw [List.append_nil]
  exact neoSpiFlashEraseSector_ends chip polls addr enough

/-- A page write emits one program of a whole page and reads the buffer's first page for
it. -/
theorem emits_writePage (addr : UInt32) (pData : Memory) :
    Emits chip polls 1 (neoSpiFlashWritePage chip.slave polls addr spiFlashPageSize pData) ⟨⟩
      [.program (addr.toNat % 2 ^ 24) spiFlashPageSize] (List.range spiFlashPageSize) := by
  have begins : flashOp (pageFrame addr spiFlashPageSize pData) =
      some (.program (addr.toNat % 2 ^ 24) spiFlashPageSize) := by
    simp [flashOp, pageFrame, addrBytes, SpiFlashCmd.code, address_bytes]
  refine emits_operation begins ?_
  intro cells wel begun calls reads enough
  rw [neoSpiFlashWritePage_ends chip polls addr spiFlashPageSize pData enough, Nat.min_self]

/-! ## The loop -/

/-- The operations of the turns that are left, at this address and behind this
erase. -/
def turnOps : Nat → UInt32 → UInt32 → List FlashOp
  | 0, _, _ => []
  | left + 1, addr, prev =>
    if addr ≥ prev + UInt32.ofNat spiFlashSectorSize then
      .erase (addr.toNat % 2 ^ 24) :: .program (addr.toNat % 2 ^ 24) spiFlashPageSize ::
        turnOps left (addr + UInt32.ofNat spiFlashPageSize) addr
    else
      .program (addr.toNat % 2 ^ 24) spiFlashPageSize ::
        turnOps left (addr + UInt32.ofNat spiFlashPageSize) prev

/-- How many pages are left `j` bytes into a write. -/
def pagesLeft (length j : Nat) : Nat := (length + 255 - j) / 256

/-- Every turn programs one page, and reads the first page of the buffer for it. By
induction on the fuel, along the turns of the loop. -/
theorem emits_hugeLoop (length : Nat) (pData : Memory) (fuel : Nat) (addr prev : UInt32) (j : Nat)
    (near : j < length + 256) (enough : length + 256 ≤ j + 256 * fuel) :
    Emits chip polls (2 * fuel) (hugeLoop chip.slave polls length pData fuel addr prev j) ⟨⟩
      (turnOps (pagesLeft length j) addr prev)
      (List.replicate (pagesLeft length j) (List.range spiFlashPageSize)).flatten := by
  induction fuel generalizing addr prev j with
  | zero => omega
  | succ fuel ih =>
    rw [hugeLoop]
    by_cases more : j < length
    · have left : pagesLeft length j = pagesLeft length (j + spiFlashPageSize) + 1 := by
        simp only [pagesLeft, spiFlashPageSize]
        omega
      have onward : ∀ prev, Emits chip polls (1 + 2 * fuel)
          (neoSpiFlashWritePage chip.slave polls addr spiFlashPageSize pData >>= fun _ =>
            hugeLoop chip.slave polls length pData fuel (addr + UInt32.ofNat spiFlashPageSize) prev
              (j + spiFlashPageSize)) ⟨⟩
          ([.program (addr.toNat % 2 ^ 24) spiFlashPageSize] ++
            turnOps (pagesLeft length (j + spiFlashPageSize))
              (addr + UInt32.ofNat spiFlashPageSize) prev)
          (List.range spiFlashPageSize ++ (List.replicate
            (pagesLeft length (j + spiFlashPageSize)) (List.range spiFlashPageSize)).flatten) := by
        intro prev
        refine emits_bind (emits_writePage addr pData) (ih _ prev _ ?_ ?_)
        · simp only [spiFlashPageSize]
          omega
        · simp only [spiFlashPageSize]
          omega
      rw [if_pos more, left, turnOps, List.replicate_succ, List.flatten_cons]
      unfold eraseAhead
      split
      · have ahead : Emits chip polls (1 + 0) (do
            neoSpiFlashEraseSector chip.slave polls addr
            pure addr) addr [.erase (addr.toNat % 2 ^ 24)] [] :=
          emits_bind (emits_eraseSector addr) (emits_pure addr)
        exact emits_more (by omega) (emits_bind ahead (onward addr))
      · exact emits_more (by omega) (emits_bind (emits_pure prev) (onward prev))
    · have none : pagesLeft length j = 0 := by
        rw [pagesLeft]
        omega
      rw [if_neg more, none]
      exact emits_more (Nat.zero_le _) (emits_pure _)

end

/-- A bulk write erases at its address and then takes its turns: its frames begin the
erase and the turns' operations, and the buffer's first page is read once for each
page. -/
theorem neoSpiFlashWriteHuge_emits (chip : Chip) (addr : UInt32) (length : Nat) (pData : Memory)
    (s : DriverState Flash) (idle : Idle s.dev) (positive : 0 < length)
    (bounded : length ≤ spiFlashBlockSize * 10) :
    ∃ enough, ∀ polls ≥ enough, ∃ s', ∃ frames : List (List UInt8),
      neoSpiFlashWriteHuge chip.slave polls addr length (some pData) s = .ok ⟨⟩ s' ∧
      s'.calls = s.calls ++ frames.flatMap frameCalls ∧
      s'.reads = s.reads ++
        (List.replicate (pagesLeft length 0) (List.range spiFlashPageSize)).flatten ∧
      frames.filterMap flashOp =
        .erase (addr.toNat % 2 ^ 24) :: turnOps (pagesLeft length 0) addr addr := by
  obtain ⟨dev, calls, reads⟩ := s
  obtain ⟨enough, patience⟩ := patient_enough chip.delay (dev.begun + (1 + 2 * (length + 1)))
  refine ⟨enough, ?_⟩
  intro polls large
  have cut : min length (spiFlashBlockSize * 10) = length := Nat.min_eq_left bounded
  have resting : dev = rest dev.cells dev.wel dev.begun := idle_rest idle
  have emits : Emits chip polls (1 + 2 * (length + 1)) (do
      neoSpiFlashEraseSector chip.slave polls addr
      hugeLoop chip.slave polls length pData (length + 1) addr addr 0) ⟨⟩
      ([.erase (addr.toNat % 2 ^ 24)] ++ turnOps (pagesLeft length 0) addr addr)
      ([] ++ (List.replicate (pagesLeft length 0) (List.range spiFlashPageSize)).flatten) := by
    refine emits_bind (emits_eraseSector addr) ?_
    exact emits_hugeLoop length pData (length + 1) addr addr 0 (by omega) (by omega)
  obtain ⟨cells, wel, begun, frames, ran, emitted, -⟩ :=
    emits dev.cells dev.wel dev.begun calls reads (patience polls large)
  have same : neoSpiFlashWriteHuge chip.slave polls addr length (some pData) = (do
      neoSpiFlashEraseSector chip.slave polls addr
      hugeLoop chip.slave polls length pData (length + 1) addr addr 0) := by
    rw [neoSpiFlashWriteHuge, if_neg (Nat.ne_of_gt positive), cut]
  rw [← same, ← resting] at ran
  exact ⟨_, frames, ran, rfl, rfl, emitted⟩

end NeoSfp
