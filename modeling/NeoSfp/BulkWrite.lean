import NeoSfp.SpiFlashOps

/-!
# The bulk write

From a sector boundary on, every sector is erased before its first page is
programmed, and each page lands in erased cells. But the buffer's cursor stands
still: every page receives the buffer's first bytes, so the flash repeats the first
page of the data over the whole range.
-/

namespace NeoSfp

open Checked NorFlash

/-- A NOR flash with the driver's geometry. -/
def norChip (delay : Nat → Nat) : Chip where
  page := spiFlashPageSize
  sector := spiFlashSectorSize
  delay := delay

/-- The contents `j` bytes into a bulk write from `start`, when the last sector
erased begins at `prev`: the first page repeated, and blank cells up to the
sector's end. -/
structure Written (start prev j : Nat) (pData : Memory) (cells : Cells) : Prop where
  first : start % 4096 = 0
  sector : prev % 4096 = 0
  pages : j % 256 = 0
  reached : prev ≤ start + j
  ahead : start + j ≤ prev + 4096
  stored : ∀ i < j, cells (start + i) = pData (i % 256)
  blank : ∀ x, start + j ≤ x → x < prev + 4096 → cells x = 0xFF

section

variable {start prev j : Nat} {pData : Memory} {cells : Cells}

/-- Erasing the sector at a boundary makes every cell of it blank. -/
theorem erase_blank (a x : Nat) (boundary : a % 4096 = 0) (low : a ≤ x) (high : x < a + 4096) :
    erase 4096 a cells x = 0xFF := by
  apply erase_inside
  omega

/-- Erasing at a boundary reaches nothing before it, so what has been written so far is
not lost. -/
theorem erase_before (a x : Nat) (boundary : a % 4096 = 0) (before : x < a) :
    erase 4096 a cells x = cells x := by
  apply erase_outside
  omega

/-- The first erase establishes the invariant: nothing is written yet, and the first
sector is blank. -/
theorem written_start (aligned : start % 4096 = 0) :
    Written start start 0 pData (erase 4096 start cells) where
  first := aligned
  sector := aligned
  pages := rfl
  reached := Nat.le_refl _
  ahead := by omega
  stored := fun i inside => absurd inside (Nat.not_lt_zero i)
  blank := fun x low high => erase_blank start x aligned low high

/-- A further erase at the running address keeps the invariant. The address is a
boundary by then, because a whole sector has been written since the last erase. -/
theorem written_erase (written : Written start prev j pData cells) (full : prev + 4096 ≤ start + j) :
    Written start (start + j) j pData (erase 4096 (start + j) cells) := by
  have ahead := written.ahead
  have sector := written.sector
  have boundary : (start + j) % 4096 = 0 := by omega
  refine
    { first := written.first
      sector := boundary
      pages := written.pages
      reached := Nat.le_refl _
      ahead := by omega
      stored := ?_
      blank := fun x low high => erase_blank (start + j) x boundary low high }
  intro i inside
  rw [erase_before (start + j) (start + i) boundary (by omega)]
  exact written.stored i inside

/-- A page programmed inside the erased sector receives the buffer's first bytes: its
cells were blank, so programming them stores the data as it is. -/
theorem written_page (written : Written start prev j pData cells) (room : start + j < prev + 4096)
    (data : List UInt8) (size : data.length = 256)
    (bytes : ∀ k (inside : k < data.length), data[k] = pData k) :
    Written start prev (j + 256) pData (program 256 (start + j) data cells) := by
  have first := written.first
  have sector := written.sector
  have pages := written.pages
  have reached := written.reached
  have fits : (start + j) % 256 + data.length ≤ 256 := by omega
  refine
    { first := first
      sector := sector
      pages := by omega
      reached := by omega
      ahead := by omega
      stored := ?_
      blank := ?_ }
  · intro i inside
    by_cases earlier : i < j
    · rw [program_around (start + j) (start + i) data cells fits (Or.inl (by omega))]
      exact written.stored i earlier
    · obtain ⟨k, place⟩ : ∃ k, i = j + k := ⟨i - j, by omega⟩
      have within : k < data.length := by omega
      have erased : cells (start + j + k) = 0xFF := written.blank _ (by omega) (by omega)
      have same : i % 256 = k := by omega
      rw [same, place, ← Nat.add_assoc,
        program_erased (start + j) k data cells fits within erased, bytes k within]
  · intro x low high
    rw [program_around (start + j) x data cells fits (Or.inr (by omega))]
    exact written.blank x (by omega) high

end

/-! ## The loop -/

/-- The first `limit` operations of the chip end within the polls. -/
def Patient (delay : Nat → Nat) (limit polls : Nat) : Prop := ∀ n < limit, delay n < polls

/-- Finitely many operations end within some number of polls, the longest of their
delays and one more. -/
theorem patient_enough (delay : Nat → Nat) (limit : Nat) :
    ∃ enough, ∀ polls ≥ enough, Patient delay limit polls := by
  refine ⟨(Finset.range limit).sup delay + 1, ?_⟩
  intro polls large n inside
  have bound : delay n ≤ (Finset.range limit).sup delay :=
    Finset.le_sup (Finset.mem_range.mpr inside)
  omega

section

variable {delay : Nat → Nat} {polls limit start prev j : Nat} {pData : Memory} {cells : Cells}
  {begun : Nat} {addr addressErasePrev : UInt32}

/-- Inside the flash the running address does not wrap, so it may be read as a
number. -/
theorem page_onward (addr : UInt32) (low : addr.toNat < 2 ^ 24) :
    (addr + UInt32.ofNat spiFlashPageSize).toNat = addr.toNat + 256 := by
  rw [UInt32.toNat_add]
  simp only [spiFlashPageSize, UInt32.toNat_ofNat']
  omega

/-- The loop erases as soon as it is a sector's length away from the last erase. Inside
the flash the sum of the source does not wrap. -/
theorem erase_due (low : addressErasePrev.toNat < 2 ^ 24) :
    addr ≥ addressErasePrev + UInt32.ofNat spiFlashSectorSize ↔
      addressErasePrev.toNat + 4096 ≤ addr.toNat := by
  have sum : (addressErasePrev + UInt32.ofNat spiFlashSectorSize).toNat =
      addressErasePrev.toNat + 4096 := by
    rw [UInt32.toNat_add]
    simp only [spiFlashSectorSize, UInt32.toNat_ofNat']
    omega
  rw [ge_iff_le, UInt32.le_iff_toNat_le, sum]

/-- Erasing ahead finds or makes room for a page: behind it the invariant holds and the
running address lies inside the erased sector. -/
theorem eraseAhead_written (patient : Patient delay limit polls) (left : begun < limit)
    (here : addr.toNat = start + j) (last : addressErasePrev.toNat = prev)
    (inside : start + j < 2 ^ 24) (written : Written start prev j pData cells) (wel : Bool)
    (calls : List SpiCall) (reads : List Nat) :
    ∃ next cells' wel' begun' calls', eraseAhead (norChip delay).slave polls addr addressErasePrev
        ⟨rest cells wel begun, calls, reads⟩ = .ok next ⟨rest cells' wel' begun', calls', reads⟩ ∧
      begun' ≤ begun + 1 ∧ Written start next.toNat j pData cells' ∧
      start + j < next.toNat + 4096 := by
  have reached := written.reached
  have compare : addr ≥ addressErasePrev + UInt32.ofNat spiFlashSectorSize ↔
      prev + 4096 ≤ start + j := by
    rw [erase_due (by omega), here, last]
  unfold eraseAhead
  by_cases full : prev + 4096 ≤ start + j
  · have low : addr.toNat % 2 ^ 24 = start + j := by omega
    rw [if_pos (compare.mpr full), Run.bind_apply, neoSpiFlashEraseSector_apply _ polls addr
      (patient begun left), Run.andThen_ok, Run.pure_apply, low]
    refine ⟨addr, _, _, _, _, rfl, Nat.le_refl _, ?_, ?_⟩
    · rw [here]
      exact written_erase written full
    · omega
  · rw [if_neg (fun more => full (compare.mp more)), Run.pure_apply]
    refine ⟨addressErasePrev, cells, wel, begun, calls, rfl, Nat.le_succ _, ?_, ?_⟩
    · rw [last]
      exact written
    · omega

/-- The loop writes the first page over what is left of the range. By induction on the
fuel, with the invariant that everything up to the running address repeats the first
page and the rest of the erased sector is blank. -/
theorem hugeLoop_repeats (patient : Patient delay limit polls) (length fuel : Nat)
    (room : start + length ≤ 2 ^ 24) (near : j < length + 256)
    (enough : length + 256 ≤ j + 256 * fuel) (left : begun + 2 * fuel ≤ limit) (here : addr.toNat = start + j)
    (last : addressErasePrev.toNat = prev) (written : Written start prev j pData cells) (wel : Bool)
    (calls : List SpiCall) (reads : List Nat) :
    ∃ s, hugeLoop (norChip delay).slave polls length pData fuel addr addressErasePrev j
        ⟨rest cells wel begun, calls, reads⟩ = .ok ⟨⟩ s ∧ Idle s.dev ∧
      ∀ i < length, s.dev.cells (start + i) = pData (i % 256) := by
  induction fuel generalizing j addr addressErasePrev prev cells wel begun calls reads with
  | zero => omega
  | succ fuel ih =>
    rw [hugeLoop]
    by_cases more : j < length
    · have pages := written.pages
      have first := written.first
      obtain ⟨next, cells', wel', begun', calls', ahead, count, erased, free⟩ :=
        eraseAhead_written patient (show begun < limit by omega) here last (by omega) written wel
          calls reads
      have size : ((List.range spiFlashPageSize).map pData).length = 256 := by
        rw [List.length_map, List.length_range, spiFlashPageSize]
      have low : addr.toNat % 2 ^ 24 = start + j := by omega
      have filled := written_page erased free ((List.range spiFlashPageSize).map pData) size
        (by simp)
      have onward : (addr + UInt32.ofNat spiFlashPageSize).toNat = start + (j + 256) := by
        rw [page_onward addr (by omega), here, Nat.add_assoc]
      rw [if_pos more, Run.bind_apply, ahead, Run.andThen_ok, Run.bind_apply,
        neoSpiFlashWritePage_apply _ polls addr spiFlashPageSize (by simp [spiFlashPageSize]) pData
          (patient begun' (by omega)), Run.andThen_ok, low, Nat.min_self]
      exact ih (by omega) (by omega) (by omega) onward rfl filled false _ _
    · rw [if_neg more, Run.pure_apply]
      refine ⟨_, rfl, rest_idle _ _ _, ?_⟩
      intro i inside
      exact written.stored i (by omega)

end

/-! ## A whole write -/

section

variable (delay : Nat → Nat) (addr : UInt32) (length : Nat) (pData : Memory)
  (s : DriverState Flash)

/-- Given polls enough, the write returns with the chip idle and its range filled with
repetitions of the buffer's first page. -/
theorem neoSpiFlashWriteHuge_repeats (idle : Idle s.dev)
    (aligned : addr.toNat % spiFlashSectorSize = 0) (positive : 0 < length)
    (bounded : length ≤ spiFlashBlockSize * 10) (fits : addr.toNat + length ≤ 2 ^ 24) :
    ∃ enough, ∀ polls ≥ enough, ∃ s',
      neoSpiFlashWriteHuge (norChip delay).slave polls addr length (some pData) s = .ok ⟨⟩ s' ∧
      Idle s'.dev ∧
      ∀ i < length, s'.dev.cells (addr.toNat + i) = pData (i % spiFlashPageSize) := by
  obtain ⟨dev, calls, reads⟩ := s
  obtain ⟨enough, patience⟩ := patient_enough delay (dev.begun + 1 + 2 * (length + 1))
  refine ⟨enough, ?_⟩
  intro polls large
  have patient := patience polls large
  have low : addr.toNat % 2 ^ 24 = addr.toNat := by omega
  have cut : min length (spiFlashBlockSize * 10) = length := Nat.min_eq_left bounded
  have same : (⟨dev, calls, reads⟩ : DriverState Flash) =
      ⟨rest dev.cells dev.wel dev.begun, calls, reads⟩ := by
    rw [← idle_rest idle]
  rw [neoSpiFlashWriteHuge, if_neg (Nat.ne_of_gt positive), cut, same, Run.bind_apply,
    neoSpiFlashEraseSector_apply _ polls addr (patient dev.begun (by omega)), Run.andThen_ok, low]
  exact hugeLoop_repeats patient length (length + 1) fits (by omega) (by omega) (by omega) rfl rfl
    (written_start aligned) false _ _

/-- The flash holds the caller's data if and only if the data repeats its own first
page: the buffer's cursor never moves. Both sides compare the data with what the write
is known to leave. -/
theorem neoSpiFlashWriteHuge_stores (idle : Idle s.dev)
    (aligned : addr.toNat % spiFlashSectorSize = 0) (positive : 0 < length)
    (bounded : length ≤ spiFlashBlockSize * 10) (fits : addr.toNat + length ≤ 2 ^ 24) :
    ∃ enough, ∀ polls ≥ enough, ∃ s',
      neoSpiFlashWriteHuge (norChip delay).slave polls addr length (some pData) s = .ok ⟨⟩ s' ∧
      ((∀ i < length, s'.dev.cells (addr.toNat + i) = pData i) ↔
        ∀ i < length, pData i = pData (i % spiFlashPageSize)) := by
  obtain ⟨enough, runs⟩ :=
    neoSpiFlashWriteHuge_repeats delay addr length pData s idle aligned positive bounded fits
  refine ⟨enough, ?_⟩
  intro polls large
  obtain ⟨s', ran, -, repeats⟩ := runs polls large
  refine ⟨s', ran, ?_⟩
  constructor
  · intro holds i inside
    rw [← holds i inside, repeats i inside]
  · intro periodic i inside
    rw [repeats i inside, ← periodic i inside]

end

/-- A blank flash that answers busy three times behind every operation. -/
def blankFlash : DriverState Flash where
  dev := rest (fun _ => 0xFF) false 0

/-- A page of zeros, and a one behind it. -/
def secondPage : Memory := fun i => if i = 256 then 1 else 0

/-- The range of two pages with a byte of its own behind the first page, on a chip that
takes time for every operation. -/
theorem neoSpiFlashWriteHuge_stores_secondPage :
    ∃ enough, ∀ polls ≥ enough, ∃ s',
      neoSpiFlashWriteHuge (norChip fun _ => 3).slave polls 0 257 (some secondPage) blankFlash =
        .ok ⟨⟩ s' ∧
      ((∀ i < 257, s'.dev.cells ((0 : UInt32).toNat + i) = secondPage i) ↔
        ∀ i < 257, secondPage i = secondPage (i % spiFlashPageSize)) :=
  neoSpiFlashWriteHuge_stores (fun _ => 3) 0 257 secondPage blankFlash (rest_idle _ _ _) rfl
    (by omega) (by simp [spiFlashBlockSize]) (by simp)

/-- The byte behind the first page is lost: the flash holds the first byte of the buffer
in its place. -/
theorem secondPage_lost :
    ∃ enough, ∀ polls ≥ enough, ∃ s',
      neoSpiFlashWriteHuge (norChip fun _ => 3).slave polls 0 257 (some secondPage) blankFlash =
        .ok ⟨⟩ s' ∧
      s'.dev.cells 256 = 0 ∧ secondPage 256 = 1 ∧
      ¬ ∀ i < 257, s'.dev.cells ((0 : UInt32).toNat + i) = secondPage i := by
  obtain ⟨enough, runs⟩ := neoSpiFlashWriteHuge_repeats (fun _ => 3) 0 257 secondPage blankFlash
    (rest_idle _ _ _) rfl (by omega) (by simp [spiFlashBlockSize]) (by simp)
  refine ⟨enough, ?_⟩
  intro polls large
  obtain ⟨s', ran, -, repeats⟩ := runs polls large
  have zero : s'.dev.cells 256 = 0 := by
    simpa [secondPage, spiFlashPageSize] using repeats 256 (by omega)
  have one : secondPage 256 = 1 := by simp [secondPage]
  refine ⟨s', ran, zero, one, ?_⟩
  intro holds
  have kept : s'.dev.cells 256 = secondPage 256 := by simpa using holds 256 (by omega)
  rw [zero, one] at kept
  simp at kept

end NeoSfp
