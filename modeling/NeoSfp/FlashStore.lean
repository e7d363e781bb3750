import NeoSfp.FlashMemory
import NeoSfp.NorChanges

/-!
# What the flash keeps

Over any sequence of calls of the driver: no bit of a cell is set again unless its
sector is erased, and a page written into erased cells is read back for as long as
no call reaches it.
-/

namespace NeoSfp

open Checked NorFlash

/-- An operation with its data, which stands at the start of a buffer. -/
def FlashOp.change (pData : Memory) : FlashOp → Change
  | .erase a => .erase a
  | .program a size => .program a ((List.range size).map pData)

/-- What a call does to the contents, one change after the other. -/
def FlashCall.changes : FlashCall → List Change
  | .check => []
  | .readByte _ => []
  | .readPage _ _ _ => []
  | .writeByte addr wdata => [.program (cellOf addr) [wdata]]
  | .writeWord addr wdata => [.program (cellOf addr) (wordBytes wdata)]
  | .writePage addr length pData =>
    [.program (cellOf addr) ((List.range (min length spiFlashPageSize)).map pData)]
  | .writeHuge _ _ none => []
  | .writeHuge addr length (some pData) =>
    if length = 0 then []
    else (FlashOp.erase (cellOf addr) ::
      turnOps (pagesLeft (min length (spiFlashBlockSize * 10)) 0) addr addr).map
        (FlashOp.change pData)
  | .eraseSector addr => [.erase (cellOf addr)]

section

variable {chip : Chip}

/-- The operations of the bulk write, read as changes of a NOR memory: the two folds
step alike, one operation and one change at a time. -/
theorem applyOps_changes (pData : Memory) (ops : List FlashOp) (cells : Cells) :
    applyOps chip pData ops cells =
      changed chip.page chip.sector (ops.map (FlashOp.change pData)) cells := by
  rw [applyOps, changed, List.foldl_map]
  congr 1
  funext cells op
  cases op <;> rfl

/-- What a call means for the contents is the list of its changes. A read and a check
have none, and only the bulk write has more than two. -/
theorem meaning_changes (call : FlashCall) (cells : Cells) :
    (call.meaning chip cells).2 = changed chip.page chip.sector call.changes cells := by
  cases call with
  | writeHuge addr length pData =>
    cases pData with
    | none => rfl
    | some pData =>
      rw [FlashCall.meaning, FlashCall.changes]
      split
      · rfl
      · exact applyOps_changes pData _ cells
  | _ => rfl

/-- The meaning of a sequence, one call at a time: the first reply, and then the meaning
of the rest on the contents that the first call left. -/
theorem meanings_cons (call : FlashCall) (calls : List FlashCall) (cells : Cells) :
    meanings chip (call :: calls) cells =
      ((call.meaning chip cells).1 :: (meanings chip calls (call.meaning chip cells).2).1,
        (meanings chip calls (call.meaning chip cells).2).2) := by
  rw [meanings, List.mapM_cons]
  rfl

/-- The meaning of two sequences in a row: the second starts from the contents that the
first leaves. By induction on the first. -/
theorem meanings_append (first second : List FlashCall) (cells : Cells) :
    meanings chip (first ++ second) cells =
      ((meanings chip first cells).1 ++ (meanings chip second (meanings chip first cells).2).1,
        (meanings chip second (meanings chip first cells).2).2) := by
  induction first generalizing cells with
  | nil => rfl
  | cons call first ih =>
    rw [List.cons_append, meanings_cons, ih, meanings_cons]
    rfl

/-- The contents behind a sequence of calls are the contents before it under all their
changes in order, so the general rules for changes apply to the driver. -/
theorem meanings_changes (calls : List FlashCall) (cells : Cells) :
    (meanings chip calls cells).2 =
      changed chip.page chip.sector (calls.flatMap FlashCall.changes) cells := by
  induction calls generalizing cells with
  | nil => rfl
  | cons call calls ih =>
    rw [meanings_cons, ih, List.flatMap_cons, changed_append, meaning_changes]

end

/-- No bit comes back by itself: whatever the driver is asked to do, as long as it does
not erase a cell's sector the cell has no bit that it did not have before. The
refinement turns the calls into changes, and a change that does not erase the sector can
only clear bits. -/
theorem serveCalls_within (chip : Chip) (calls : List FlashCall) (s : DriverState Flash)
    (idle : Idle s.dev) (x : Nat)
    (kept : ∀ call ∈ calls, ∀ change ∈ call.changes, ¬ change.Erases chip.sector x) :
    ∃ enough, ∀ polls ≥ enough, ∃ replies s',
      serveCalls chip.slave polls calls s = .ok replies s' ∧ Idle s'.dev ∧
      Within (s'.dev.cells x) (s.dev.cells x) := by
  obtain ⟨enough, patience⟩ := patient_enough chip.delay
    (s.dev.begun + (calls.map FlashCall.operations).sum)
  refine ⟨enough, ?_⟩
  intro polls large
  obtain ⟨s', ran, cells, idle'⟩ := serveCalls_means calls s idle (patience polls large)
  refine ⟨_, s', ran, idle', ?_⟩
  rw [cells, meanings_changes]
  apply changed_within
  intro change member
  obtain ⟨call, inside, found⟩ := List.mem_flatMap.mp member
  exact kept call inside change found

/-- A write without an erase: the cell keeps no bit that it did not have. -/
theorem serveCalls_within_written :
    ∃ enough, ∀ polls ≥ enough, ∃ replies s',
      serveCalls (norChip fun _ => 3).slave polls [.writeByte 7 0x5A, .eraseSector 4096] blankFlash =
        .ok replies s' ∧ Idle s'.dev ∧ Within (s'.dev.cells 7) (blankFlash.dev.cells 7) := by
  apply serveCalls_within (norChip fun _ => 3) _ blankFlash (rest_idle _ _ _) 7
  simp [FlashCall.changes, Change.Erases, cellOf, norChip, spiFlashSectorSize]

/-- The calls that store a page and read it back, with other calls around them. -/
def storing (before quiet later : List FlashCall) (sector addr : UInt32) (length : Nat)
    (pData buffer : Memory) : List FlashCall :=
  before ++ .eraseSector sector :: quiet ++ .writePage addr length pData :: later ++
    [.readPage addr length buffer]

/-- The changes of a storing sequence fall apart at the erase and at the write, which is
the shape that the rule for stored pages asks for. -/
theorem storing_changes (before quiet later : List FlashCall) (sector addr : UInt32) (length : Nat)
    (pData : Memory) :
    (before ++ .eraseSector sector :: quiet ++ .writePage addr length pData :: later).flatMap
        FlashCall.changes =
      before.flatMap FlashCall.changes ++
        (.erase (cellOf sector) :: quiet.flatMap FlashCall.changes ++
          .program (cellOf addr) ((List.range (min length spiFlashPageSize)).map pData) ::
            later.flatMap FlashCall.changes) := by
  simp [FlashCall.changes]

/-- What has been stored is there: a page written into a sector that has been erased is
read back, whatever was asked of the driver before the erase, and as long as nothing in
between reaches its cells. The erase makes the page's cells blank, the write puts the
data there, and every other change leaves them alone. -/
theorem serveCalls_retrieves (delay : Nat → Nat) (before quiet later : List FlashCall)
    (sector addr : UInt32) (length : Nat) (pData buffer : Memory) (s : DriverState Flash)
    (idle : Idle s.dev) (same : cellOf addr / spiFlashSectorSize = cellOf sector / spiFlashSectorSize)
    (fits : cellOf addr % spiFlashPageSize + length ≤ spiFlashPageSize)
    (apart : ∀ call ∈ quiet ++ later, ∀ change ∈ call.changes, ∀ i < length,
      ¬ change.Reaches spiFlashPageSize spiFlashSectorSize (cellOf addr + i)) :
    ∃ enough, ∀ polls ≥ enough, ∃ replies page s',
      serveCalls (norChip delay).slave polls
        (storing before quiet later sector addr length pData buffer) s =
          .ok (replies ++ [.page page]) s' ∧
      Idle s'.dev ∧ ∀ i < length, page i = pData i := by
  obtain ⟨enough, patience⟩ := patient_enough (norChip delay).delay (s.dev.begun +
    ((storing before quiet later sector addr length pData buffer).map FlashCall.operations).sum)
  refine ⟨enough, ?_⟩
  intro polls large
  obtain ⟨s', ran, -, idle'⟩ := serveCalls_means _ s idle (patience polls large)
  rw [storing, meanings_append] at ran
  refine ⟨_, _, s', ran, idle', ?_⟩
  intro i inside
  have whole : min length spiFlashPageSize = length := by omega
  have below : (cellOf addr + i) % 2 ^ 24 = cellOf addr + i := by
    apply Nat.mod_eq_of_lt
    simp only [spiFlashPageSize, cellOf] at fits ⊢
    omega
  have sameSector : (cellOf addr + i) / spiFlashSectorSize = cellOf sector / spiFlashSectorSize := by
    simp only [spiFlashPageSize, spiFlashSectorSize] at fits same ⊢
    omega
  rw [readInto, whole, if_pos inside, below, meanings_changes, storing_changes, changed_append]
  have stored := changed_stored spiFlashPageSize spiFlashSectorSize (cellOf addr) (cellOf sector) i
    ((List.range length).map pData) (quiet.flatMap FlashCall.changes)
    (later.flatMap FlashCall.changes)
    (changed (norChip delay).page (norChip delay).sector (before.flatMap FlashCall.changes) s.dev.cells)
    (by simpa using fits) (by simpa using inside) sameSector ?_
  · rw [List.getElem_map, List.getElem_range] at stored
    rw [whole]
    exact stored
  · intro change member
    rw [← List.flatMap_append] at member
    obtain ⟨call, among, found⟩ := List.mem_flatMap.mp member
    exact apart call among change found i inside

/-- Four bytes of the first page, with a byte of the next page and an erase of the next
sector behind them. -/
theorem serveCalls_retrieves_kept :
    ∃ enough, ∀ polls ≥ enough, ∃ replies page s',
      serveCalls (norChip fun _ => 3).slave polls
        (storing [.writeByte 17 0] [.check] [.writeByte 300 0x5A, .eraseSector 4096] 0 16 4 secondPage
          fun _ => 0) blankFlash = .ok (replies ++ [.page page]) s' ∧
      Idle s'.dev ∧ ∀ i < 4, page i = secondPage i := by
  refine serveCalls_retrieves (fun _ => 3) _ _ _ 0 16 4 secondPage _ blankFlash (rest_idle _ _ _) rfl
    (by decide) ?_
  intro call among change found i inside
  simp only [List.cons_append, List.nil_append, List.mem_cons, List.not_mem_nil, or_false] at among
  obtain rfl | rfl | rfl := among
  · exact absurd found List.not_mem_nil
  · rw [List.mem_singleton.mp found]
    simp [Change.Reaches, cellOf, walk]
    omega
  · rw [List.mem_singleton.mp found]
    simp [Change.Reaches, cellOf, spiFlashSectorSize]
    omega

end NeoSfp
