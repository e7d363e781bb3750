import NeoSfp.BulkWrite

/-!
# Programs of several bytes

A word and a page are programmed by one command, which the device wraps around at
the end of the addressed page. Written by single bytes, the same data would go on
in the next page. Both are sequences of cleared cells, and the two differ only in
the bytes behind the end of the page.
-/

namespace NeoSfp

open Checked NorFlash

section

variable {σ : Type} (spi : Slave σ)

/-- Bytes from the `i`-th on, one call each: byte `i` is written at `addr + i`. -/
def writeBytes (polls : Nat) (addr : UInt32) : Nat → List UInt8 → Driver σ PUnit
  | _, [] => pure ⟨⟩
  | i, b :: bs => do
    neoSpiFlashWriteByte spi polls (addr + UInt32.ofNat i) b
    writeBytes polls addr (i + 1) bs

end

/-- Two programs leave the same contents: given polls enough for the chip's delays,
both return, with the chip done, and no cell tells them apart. -/
def SameContents (s : DriverState Flash) (fast slow : Nat → Driver Flash PUnit) : Prop :=
  ∃ enough, ∀ polls ≥ enough, ∃ left right,
    fast polls s = .ok ⟨⟩ left ∧ slow polls s = .ok ⟨⟩ right ∧
      Idle left.dev ∧ Idle right.dev ∧ left.dev.cells = right.dev.cells

/-- The bytes behind the end of the addressed page would clear nothing: neither at
the page's beginning, where the device puts them, nor in the next page. -/
def SpillsNothing (cells : Cells) (addr : UInt32) (data : List UInt8) : Prop :=
  ∀ i (inside : i < data.length), spiFlashPageSize ≤ addr.toNat % spiFlashPageSize + i →
    cells (around spiFlashPageSize (addr.toNat % 2 ^ 24) i) &&& data[i] =
        cells (around spiFlashPageSize (addr.toNat % 2 ^ 24) i) ∧
      cells ((addr.toNat + i) % 2 ^ 24) &&& data[i] = cells ((addr.toNat + i) % 2 ^ 24)

/-! ## What the programs clear -/

/-- The cell that byte `i` behind an address goes to, written on its own. -/
def straight (addr : UInt32) (i : Nat) : Nat := (addr + UInt32.ofNat i).toNat % 2 ^ 24

/-- The cell of a byte in the chip's own 24 bits: the 32-bit sum of the driver and the
address bytes leave the same remainder. -/
theorem straight_eq (addr : UInt32) (i : Nat) : straight addr i = (addr.toNat + i) % 2 ^ 24 := by
  rw [straight, UInt32.toNat_add, UInt32.toNat_ofNat']
  omega

section

variable {chip : Chip} {cells : Cells} {wel : Bool} {begun polls : Nat} {calls : List SpiCall}
  {reads : List Nat}

/-- The contents behind a program command are those of the abstract program, also for a
command without data, which the chip ignores. -/
theorem operated_program (addr : UInt32) (data : List UInt8) :
    (operated chip cells begun (0x02 :: (addrBytes addr ++ data))).cells =
      program chip.page (addr.toNat % 2 ^ 24) data cells := by
  cases data with
  | nil => simp [operated, Chip.execute, addrBytes, program]
  | cons b bs => simp [operated, Chip.execute, addrBytes, address_bytes, Chip.begins]

/-- An operation within the polls' patience is over before they end, whether or not the
frame begins one. -/
theorem operated_busy (frame : List UInt8) (enough : chip.delay begun < polls) :
    (operated chip cells begun frame).busy < polls := by
  have begins := operated_begins chip cells begun frame
  omega

/-- Bytes written one by one each clear the bits of their own cell. By induction on the
bytes, with one operation of the chip for each. -/
theorem writeBytes_burns (addr : UInt32) (i : Nat) (bs : List UInt8)
    (patient : Patient chip.delay (begun + bs.length) polls) :
    ∃ s', writeBytes chip.slave polls addr i bs ⟨rest cells wel begun, calls, reads⟩ =
        .ok ⟨⟩ s' ∧ Idle s'.dev ∧ s'.dev.cells = burn (straight addr) i bs cells := by
  induction bs generalizing i cells wel begun calls reads with
  | nil => exact ⟨_, rfl, rest_idle cells wel begun, rfl⟩
  | cons b bs ih =>
    rw [List.length_cons] at patient
    have enough : chip.delay begun < polls := patient begun (by omega)
    rw [writeBytes, Run.bind_apply,
      neoSpiFlashWriteByte_ends chip polls _ b (operated_busy _ enough), Run.andThen_ok, ended]
    have count := operated_begins chip cells begun
      (0x02 :: (addrBytes (addr + UInt32.ofNat i) ++ [b]))
    have later : Patient chip.delay
        ((operated chip cells begun (0x02 :: (addrBytes (addr + UInt32.ofNat i) ++ [b]))).begun +
          bs.length) polls := by
      intro n inside
      exact patient n (by omega)
    obtain ⟨s', ran, idle, burnt⟩ := ih (i + 1) later
    refine ⟨s', ran, idle, ?_⟩
    rw [burnt, operated_program]
    rfl

/-! ## One command against single bytes -/

/-- A page command and single bytes clear the same cells exactly when the bytes
behind the end of the page clear none. -/
theorem program_burn_iff (addr : UInt32) (data : List UInt8) (fits : data.length ≤ spiFlashPageSize) :
    program spiFlashPageSize (addr.toNat % 2 ^ 24) data cells = burn (straight addr) 0 data cells ↔
      SpillsNothing cells addr data := by
  rw [spiFlashPageSize] at fits
  have command : program spiFlashPageSize (addr.toNat % 2 ^ 24) data cells =
      burn (around spiFlashPageSize (addr.toNat % 2 ^ 24)) 0 data cells := by
    have start := program_burn (show 0 < spiFlashPageSize by decide) (addr.toNat % 2 ^ 24) 0 data cells
    rwa [around_zero] at start
  rw [command, burn_eq_iff, SpillsNothing]
  · simp only [straight_eq, around, spiFlashPageSize]
    constructor
    · intro harmless i inside spilled
      exact harmless i inside (by omega)
    · intro harmless i inside differ
      exact harmless i inside (by omega)
  · intro j j' less high
    simp only [around, spiFlashPageSize]
    omega
  · intro j j' less high
    simp only [straight_eq]
    omega
  · intro i inside
    simp only [straight_eq, around, spiFlashPageSize]
    by_cases room : addr.toNat % 256 + i < 256
    · left
      omega
    · right
      intro j high
      constructor
      · omega
      · omega

/-- A single page command leaves the contents that its bytes, written one by one,
would leave, exactly when the bytes behind the end of the page clear nothing. -/
theorem sameContents_iff (chip : Chip) (page : chip.page = spiFlashPageSize)
    (s : DriverState Flash) (idle : Idle s.dev) (addr : UInt32) (data : List UInt8)
    (fits : data.length ≤ spiFlashPageSize) (fast : Nat → Driver Flash PUnit) (sent : List Nat)
    (ends : ∀ cells wel begun calls reads polls,
      (operated chip cells begun (0x02 :: (addrBytes addr ++ data))).busy < polls →
      fast polls ⟨rest cells wel begun, calls, reads⟩ =
        .ok ⟨⟩ (ended (operated chip cells begun (0x02 :: (addrBytes addr ++ data)))
          (0x02 :: (addrBytes addr ++ data)) calls (reads ++ sent))) :
    SameContents s fast (fun polls => writeBytes chip.slave polls addr 0 data) ↔
      SpillsNothing s.dev.cells addr data := by
  obtain ⟨dev, calls, reads⟩ := s
  obtain ⟨cells, wel, begun, resting⟩ : ∃ cells wel begun, dev = rest cells wel begun :=
    ⟨_, _, _, idle_rest idle⟩
  subst resting
  change SameContents ⟨rest cells wel begun, calls, reads⟩ fast _ ↔ SpillsNothing cells addr data
  rw [← program_burn_iff addr data fits, ← page]
  have outcome : ∀ polls, Patient chip.delay (begun + data.length + 1) polls → ∃ left right,
      fast polls ⟨rest cells wel begun, calls, reads⟩ = .ok ⟨⟩ left ∧
      writeBytes chip.slave polls addr 0 data ⟨rest cells wel begun, calls, reads⟩ = .ok ⟨⟩ right ∧
      Idle left.dev ∧ Idle right.dev ∧
      left.dev.cells = program chip.page (addr.toNat % 2 ^ 24) data cells ∧
      right.dev.cells = burn (straight addr) 0 data cells := by
    intro polls patient
    have ran := ends cells wel begun calls reads polls
      (operated_busy _ (patient begun (by omega)))
    have sooner : Patient chip.delay (begun + data.length) polls := by
      intro n inside
      exact patient n (by omega)
    obtain ⟨right, ran', idle', burnt⟩ := writeBytes_burns addr 0 data sooner
    exact ⟨_, right, ran, ran', rest_idle _ _ _, idle', operated_program addr data, burnt⟩
  obtain ⟨enough, patience⟩ := patient_enough chip.delay (begun + data.length + 1)
  constructor
  · rintro ⟨enough', same⟩
    obtain ⟨left, right, ran, ran', -, -, cells_same⟩ :=
      same (max enough enough') (Nat.le_max_right _ _)
    obtain ⟨left', right', again, again', -, -, programmed, burnt⟩ :=
      outcome _ (patience (max enough enough') (Nat.le_max_left _ _))
    have once : Outcome.ok PUnit.unit left = .ok PUnit.unit left' := ran.symm.trans again
    have once' : Outcome.ok PUnit.unit right = .ok PUnit.unit right' := ran'.symm.trans again'
    cases once
    cases once'
    rw [← programmed, ← burnt, cells_same]
  · intro same
    refine ⟨enough, ?_⟩
    intro polls large
    obtain ⟨left, right, ran, ran', idle', idle'', programmed, burnt⟩ :=
      outcome polls (patience polls large)
    refine ⟨left, right, ran, ran', idle', idle'', ?_⟩
    rw [programmed, burnt, same]

end

/-- A word and a page agree with their bytes written one by one exactly when the bytes
that fall behind the end of the addressed page would clear nothing, neither where the
device puts them nor where they belong. Each is a single program command, so the
statement about such commands applies to both. -/
theorem neoSpiFlashWrite_bytewise (chip : Chip) (page : chip.page = spiFlashPageSize)
    (s : DriverState Flash) (idle : Idle s.dev) (addr : UInt32) :
    (∀ wdata : UInt32,
      SameContents s (fun polls => neoSpiFlashWriteWord chip.slave polls addr wdata)
          (fun polls => writeBytes chip.slave polls addr 0 (wordBytes wdata)) ↔
        SpillsNothing s.dev.cells addr (wordBytes wdata)) ∧
      ∀ (length : Nat) (pData : Memory),
        SameContents s (fun polls => neoSpiFlashWritePage chip.slave polls addr length pData)
            (fun polls => writeBytes chip.slave polls addr 0
              ((List.range (min length spiFlashPageSize)).map pData)) ↔
          SpillsNothing s.dev.cells addr ((List.range (min length spiFlashPageSize)).map pData) := by
  constructor
  · intro wdata
    refine sameContents_iff chip page s idle addr (wordBytes wdata)
      (by simp [wordBytes, spiFlashPageSize]) _ [] ?_
    intro cells wel begun calls reads polls enough
    exact neoSpiFlashWriteWord_ends chip polls addr wdata enough
  · intro length pData
    refine sameContents_iff chip page s idle addr _ (by simp) _
      (List.range (min length spiFlashPageSize)) ?_
    intro cells wel begun calls reads polls enough
    exact neoSpiFlashWritePage_ends chip polls addr length pData enough

/-- A word and a page that begin two places in front of the end of a page. -/
theorem neoSpiFlashWrite_bytewise_blank :
    (SameContents blankFlash
          (fun polls => neoSpiFlashWriteWord (norChip fun _ => 3).slave polls 0xFE 0x12345678)
          (fun polls => writeBytes (norChip fun _ => 3).slave polls 0xFE 0 (wordBytes 0x12345678)) ↔
        SpillsNothing blankFlash.dev.cells 0xFE (wordBytes 0x12345678)) ∧
      (SameContents blankFlash
          (fun polls => neoSpiFlashWritePage (norChip fun _ => 3).slave polls 0xFE 257 secondPage)
          (fun polls => writeBytes (norChip fun _ => 3).slave polls 0xFE 0
            ((List.range (min 257 spiFlashPageSize)).map secondPage)) ↔
        SpillsNothing blankFlash.dev.cells 0xFE
          ((List.range (min 257 spiFlashPageSize)).map secondPage)) :=
  ⟨(neoSpiFlashWrite_bytewise (norChip fun _ => 3) rfl blankFlash (rest_idle _ _ _) 0xFE).1 0x12345678,
    (neoSpiFlashWrite_bytewise (norChip fun _ => 3) rfl blankFlash (rest_idle _ _ _) 0xFE).2 257
      secondPage⟩

/-- A word two places in front of the end of a page: its last two bytes land at the
beginning of the page, where single bytes would not. -/
theorem writeWord_wraps :
    ¬ SameContents blankFlash
      (fun polls => neoSpiFlashWriteWord (norChip fun _ => 3).slave polls 0xFE 0)
      (fun polls => writeBytes (norChip fun _ => 3).slave polls 0xFE 0 (wordBytes 0)) := by
  intro same
  have spills : SpillsNothing (fun _ => 0xFF) 0xFE (wordBytes 0) := by
    refine (sameContents_iff (norChip fun _ => 3) rfl blankFlash (rest_idle _ _ _) 0xFE (wordBytes 0)
      (by decide) _ [] ?_).mp same
    intro cells wel begun calls reads polls enough
    exact neoSpiFlashWriteWord_ends (norChip fun _ => 3) polls 0xFE 0 enough
  obtain ⟨kept, -⟩ := spills 2 (by decide) (by decide)
  exact absurd kept (by decide)

end NeoSfp
