import Mathlib

/-!
# NOR flash behind a serial bus

Erasing sets every bit of a sector and programming can only clear bits, inside the
page it starts in. The device takes commands in frames, from the moment it is
selected until it is released, and carries a frame out when it is released. A
program or an erase needs the write-enable latch, clears it and keeps the device
busy: while it is, the device answers status reads and ignores everything else.
-/

namespace NorFlash

/-- The contents, by address. -/
abbrev Cells := Nat → UInt8

/-! ## Contents -/

/-- Erase the sector that holds the address `a`. -/
def erase (sector a : Nat) (cells : Cells) : Cells := fun x =>
  if x / sector = a / sector then 0xFF else cells x

/-- The address behind `a` in its page; behind the last one comes the first. -/
def next (page a : Nat) : Nat := a / page * page + (a + 1) % page

/-- Program bytes from `a` on. -/
def program (page : Nat) : Nat → List UInt8 → Cells → Cells
  | _, [], cells => cells
  | a, b :: bs, cells => program page (next page a) bs (Function.update cells a (cells a &&& b))

/-- The cells reached by programming so many bytes from `a` on. -/
def walk (page : Nat) : Nat → Nat → List Nat
  | _, 0 => []
  | a, count + 1 => a :: walk page (next page a) count

section

variable {page sector : Nat}

/-- A cell of the erased sector is blank. -/
@[simp] theorem erase_inside (a x : Nat) (cells : Cells) (same : x / sector = a / sector) :
    erase sector a cells x = 0xFF := if_pos same

/-- A cell of another sector keeps its byte. -/
@[simp] theorem erase_outside (a x : Nat) (cells : Cells) (other : x / sector ≠ a / sector) :
    erase sector a cells x = cells x := if_neg other

/-- In front of the end of a page a step forward is one in the page. -/
theorem succ_mod (a : Nat) (room : a % page + 1 < page) : (a + 1) % page = a % page + 1 := by
  rw [Nat.add_mod, Nat.mod_eq_of_lt (show 1 < page by omega), Nat.mod_eq_of_lt room]

/-- In front of the end of a page the next address is the successor; only from its last
place does the device go back to the first. -/
theorem next_succ (a : Nat) (room : a % page + 1 < page) : next page a = a + 1 := by
  have split := Nat.div_add_mod a page
  rw [next, succ_mod a room, Nat.mul_comm]
  omega

/-- Programming leaves every cell it does not reach. By induction on the data, along the
walk of the addresses. -/
theorem program_outside (a x : Nat) (bs : List UInt8) (cells : Cells)
    (outside : x ∉ walk page a bs.length) : program page a bs cells x = cells x := by
  induction bs generalizing a cells with
  | nil => rfl
  | cons b bs ih =>
    rw [List.length_cons, walk, List.mem_cons, not_or] at outside
    obtain ⟨apart, later⟩ := outside
    rw [program, ih _ _ later, Function.update_of_ne apart]

/-- In front of the end of a page a walk is a range. By induction on its length: as long
as there is room, the next address is the successor. -/
theorem mem_walk (a count x : Nat) (fits : a % page + count ≤ page) :
    x ∈ walk page a count ↔ a ≤ x ∧ x < a + count := by
  induction count generalizing a with
  | zero =>
    rw [walk, List.mem_nil_iff, false_iff]
    omega
  | succ count ih =>
    rw [walk, List.mem_cons]
    cases count with
    | zero =>
      rw [walk, List.mem_nil_iff, or_false]
      omega
    | succ count =>
      have low : (a + 1) % page = a % page + 1 := succ_mod a (by omega)
      rw [next_succ a (by omega), ih (a + 1) (by omega)]
      omega

/-- Programming that does not reach the end of its page leaves the cells around it, in
front and behind. -/
theorem program_around (a x : Nat) (bs : List UInt8) (cells : Cells)
    (fits : a % page + bs.length ≤ page) (around : x < a ∨ a + bs.length ≤ x) :
    program page a bs cells x = cells x := by
  apply program_outside
  rw [mem_walk a bs.length x fits]
  omega

/-- Each cell that programming reaches keeps the bits that were set and are set in its
byte, as long as it does not run over the end of its page, where cells would be reached
again. -/
theorem program_inside (a k : Nat) (bs : List UInt8) (cells : Cells)
    (fits : a % page + bs.length ≤ page) (inside : k < bs.length) :
    program page a bs cells (a + k) = cells (a + k) &&& bs[k] := by
  induction bs generalizing a k cells with
  | nil => exact absurd inside (Nat.not_lt_zero k)
  | cons b bs ih =>
    rw [List.length_cons] at fits inside
    cases bs with
    | nil =>
      have zero : k = 0 := by
        rw [List.length_nil] at inside
        omega
      subst zero
      simp [program]
    | cons c bs =>
      rw [List.length_cons] at fits inside
      have succ : next page a = a + 1 := next_succ a (by omega)
      have low : (a + 1) % page = a % page + 1 := succ_mod a (by omega)
      have later : (a + 1) % page + (c :: bs).length ≤ page := by
        rw [List.length_cons]
        omega
      rw [program, succ]
      cases k with
      | zero =>
        rw [program_around (a + 1) (a + 0) (c :: bs) _ later (Or.inl (by omega)), Nat.add_zero,
          Function.update_self, List.getElem_cons_zero]
      | succ k =>
        have moved : a + (k + 1) = a + 1 + k := by omega
        rw [moved, ih (a + 1) k _ later (by rw [List.length_cons]; omega),
          Function.update_of_ne (by omega), List.getElem_cons_succ]

/-- An erased cell takes any byte, as all of its bits are set. -/
theorem erased_and (b : UInt8) : 0xFF &&& b = b := by
  apply UInt8.eq_of_toBitVec_eq
  rw [UInt8.toBitVec_and]
  exact BitVec.allOnes_and

/-- Erased cells take the bytes programmed: this is the case in which a flash can be
written like a memory. -/
theorem program_erased (a k : Nat) (bs : List UInt8) (cells : Cells)
    (fits : a % page + bs.length ≤ page) (inside : k < bs.length) (blank : cells (a + k) = 0xFF) :
    program page a bs cells (a + k) = bs[k] := by
  rw [program_inside a k bs cells fits inside, blank, erased_and]

/-- Three bytes from the third place of a page of four: the last one wraps around. -/
example : (List.range 5).map (program 4 2 [1, 2, 3] fun _ => 0xFF) = [3, 0xFF, 1, 2, 0xFF] := by
  decide

end

/-! ## Byte by byte -/

/-- The place `k` behind `a` in its page, wrapping around at its end. -/
def around (page a k : Nat) : Nat := a / page * page + (a + k) % page

/-- Clear bits in one cell after another: byte `k` of the data goes to `place k`. -/
def burn (place : Nat → Nat) : Nat → List UInt8 → Cells → Cells
  | _, [], cells => cells
  | k, b :: bs, cells =>
    burn place (k + 1) bs (Function.update cells (place k) (cells (place k) &&& b))

section

variable {page : Nat} {place other : Nat → Nat}

/-- The walk around a page begins where it is told to. -/
theorem around_zero (a : Nat) : around page a 0 = a := by
  have split := Nat.div_add_mod a page
  rw [around, Nat.add_zero, Nat.mul_comm]
  exact split

/-- A step of the device is a step of the walk around the page, at its end as well, so
that the places of a program are known without going through it. -/
theorem next_around (positive : 0 < page) (a k : Nat) :
    next page (around page a k) = around page a (k + 1) := by
  have inside : (a + k) % page < page := Nat.mod_lt _ positive
  have same : around page a k / page = a / page := by
    rw [around, Nat.mul_comm, Nat.mul_add_div positive, Nat.div_eq_of_lt inside, Nat.add_zero]
  have low : (around page a k + 1) % page = (a + (k + 1)) % page := by
    rw [around, Nat.add_assoc, Nat.mul_add_mod_self_right, Nat.mod_add_mod, Nat.add_assoc]
  rw [next, same, low, around]

/-- Programming a page clears bits in its cells, one after another, at the places of the
walk around it. By induction on the data; this takes the order of the device out of the
argument. -/
theorem program_burn (positive : 0 < page) (a k : Nat) (bs : List UInt8) (cells : Cells) :
    program page (around page a k) bs cells = burn (around page a) k bs cells := by
  induction bs generalizing k cells with
  | nil => rfl
  | cons b bs ih => rw [program, burn, next_around positive, ih]

/-- Bits are cleared only in the cells that some byte goes to. -/
theorem burn_outside (k x : Nat) (bs : List UInt8) (cells : Cells)
    (outside : ∀ j, k ≤ j → j < k + bs.length → place j ≠ x) :
    burn place k bs cells x = cells x := by
  induction bs generalizing k cells with
  | nil => rfl
  | cons b bs ih =>
    rw [List.length_cons] at outside
    have apart : x ≠ place k := (outside k (Nat.le_refl k) (by omega)).symm
    rw [burn, ih (k + 1), Function.update_of_ne apart]
    intro j low high
    exact outside j (by omega) (by omega)

/-- Where the places are distinct, each cell is cleared once, with its own byte. By
induction on the data: the byte is the first one and its cell is left alone behind it,
or it is one of the others. -/
theorem burn_inside (k i : Nat) (bs : List UInt8) (cells : Cells) (inside : i < bs.length)
    (distinct : ∀ j j', k ≤ j → j < j' → j' < k + bs.length → place j ≠ place j') :
    burn place k bs cells (place (k + i)) = cells (place (k + i)) &&& bs[i] := by
  induction bs generalizing k i cells with
  | nil => exact absurd inside (Nat.not_lt_zero i)
  | cons b bs ih =>
    rw [List.length_cons] at inside distinct
    cases i with
    | zero =>
      rw [Nat.add_zero, burn, burn_outside, Function.update_self, List.getElem_cons_zero]
      intro j low high
      exact (distinct k j (Nat.le_refl k) (by omega) (by omega)).symm
    | succ i =>
      have apart : place (k + 1 + i) ≠ place k :=
        (distinct k (k + 1 + i) (Nat.le_refl k) (by omega) (by omega)).symm
      have moved : k + (i + 1) = k + 1 + i := by omega
      rw [burn, moved, ih (k + 1) i _ (by omega), Function.update_of_ne apart,
        List.getElem_cons_succ]
      intro j j' low less high
      exact distinct j j' (by omega) less (by omega)

/-- The same for data from its first byte on, which is how programs and frames begin. -/
theorem burn_cleared (i : Nat) (bs : List UInt8) (cells : Cells) (inside : i < bs.length)
    (distinct : ∀ j j', j < j' → j' < bs.length → place j ≠ place j') :
    burn place 0 bs cells (place i) = cells (place i) &&& bs[i] := by
  have done := burn_inside 0 i bs cells inside fun j j' _ less high =>
    distinct j j' less (by omega)
  rwa [Nat.zero_add] at done

/-- A byte that both put in one place, or that clears nothing where the other ones do
not reach, leaves its cell the same under both. -/
theorem burn_agrees (i : Nat) (bs : List UInt8) (cells : Cells) (inside : i < bs.length)
    (distinct : ∀ j j', j < j' → j' < bs.length → place j ≠ place j')
    (distinct' : ∀ j j', j < j' → j' < bs.length → other j ≠ other j')
    (apart : place i = other i ∨
      cells (place i) &&& bs[i] = cells (place i) ∧ ∀ j < bs.length, other j ≠ place i) :
    burn place 0 bs cells (place i) = burn other 0 bs cells (place i) := by
  rw [burn_cleared i bs cells inside distinct]
  cases apart with
  | inl agree => rw [agree, burn_cleared i bs cells inside distinct']
  | inr away =>
    obtain ⟨kept, away⟩ := away
    rw [kept, burn_outside]
    intro j _ high
    exact away j (by omega)

/-- Places agree for some bytes, and for the others lie where the other ones do not
reach. Then the contents agree exactly when the others clear nothing: a cell where they
differ tells the two apart, and if there is none they agree cell by cell. -/
theorem burn_eq_iff (bs : List UInt8) (cells : Cells)
    (distinct : ∀ j j', j < j' → j' < bs.length → place j ≠ place j')
    (distinct' : ∀ j j', j < j' → j' < bs.length → other j ≠ other j')
    (apart : ∀ i < bs.length, place i = other i ∨
      ∀ j < bs.length, place j ≠ other i ∧ other j ≠ place i) :
    burn place 0 bs cells = burn other 0 bs cells ↔
      ∀ i (inside : i < bs.length), place i ≠ other i →
        cells (place i) &&& bs[i] = cells (place i) ∧
          cells (other i) &&& bs[i] = cells (other i) := by
  constructor
  · intro same i inside differ
    obtain agree | away := apart i inside
    · exact absurd agree differ
    constructor
    · rw [← burn_cleared i bs cells inside distinct, same]
      exact burn_outside 0 _ bs cells fun j _ high => (away j (by omega)).2
    · rw [← burn_cleared i bs cells inside distinct', ← same]
      exact burn_outside 0 _ bs cells fun j _ high => (away j (by omega)).1
  · intro harmless
    funext x
    by_cases reached : ∃ i, i < bs.length ∧ (place i = x ∨ other i = x)
    · obtain ⟨i, inside, at_place⟩ := reached
      have away : place i = other i ∨ place i ≠ other i ∧
          ∀ j < bs.length, place j ≠ other i ∧ other j ≠ place i :=
        (apart i inside).imp_right fun away => ⟨(away i inside).1, away⟩
      cases at_place with
      | inl here =>
        subst here
        refine burn_agrees i bs cells inside distinct distinct' (away.imp_right ?_)
        rintro ⟨differ, away⟩
        exact ⟨(harmless i inside differ).1, fun j high => (away j high).2⟩
      | inr here =>
        subst here
        refine (burn_agrees i bs cells inside distinct' distinct (away.imp Eq.symm ?_)).symm
        rintro ⟨differ, away⟩
        exact ⟨(harmless i inside differ).2, fun j high => (away j high).1⟩
    · rw [burn_outside, burn_outside]
      · intro j _ high there
        exact reached ⟨j, by omega, Or.inr there⟩
      · intro j _ high here
        exact reached ⟨j, by omega, Or.inl here⟩

end

/-! ## The device -/

/-- A device on a serial bus: what selecting it, releasing it and exchanging a byte
with it do. -/
structure Slave (σ : Type) where
  select : σ → σ
  release : σ → σ
  exchange : UInt8 → σ → UInt8 × σ

/-- A chip: its geometry, and how many status reads find it busy behind each of
the programs and erases it begins. -/
structure Chip where
  page : Nat
  sector : Nat
  delay : Nat → Nat

/-- A chip's state. A frame is what has been received since it was selected. -/
structure Flash where
  cells : Cells
  wel : Bool
  busy : Nat
  begun : Nat
  frame : Option (List UInt8)

/-- Selected by nobody, and done with everything begun. -/
structure Idle (f : Flash) : Prop where
  done : f.busy = 0
  released : f.frame = none

/-- The address in three bytes, most significant first. -/
def address (high middle low : UInt8) : Nat :=
  high.toNat * 65536 + middle.toNat * 256 + low.toNat

/-- Bit 0 is BUSY and bit 1 is the write-enable latch. -/
def status (f : Flash) : UInt8 := (if f.busy ≠ 0 then 1 else 0) ||| (if f.wel then 2 else 0)

namespace Chip

variable (chip : Chip)

/-- Begin a program or an erase that leaves these contents. -/
def begins (cells : Cells) (f : Flash) : Flash :=
  { f with
    cells := cells
    wel := false
    busy := chip.delay f.begun
    begun := f.begun + 1 }

/-- Carry out a command other than a read. -/
def execute (f : Flash) : List UInt8 → Flash
  | [] => f
  | op :: arg =>
    if f.busy ≠ 0 then f
    else if op = 0x06 then { f with wel := true }
    else if op = 0x04 then { f with wel := false }
    else if op = 0x02 ∧ f.wel then
      match arg with
      | high :: middle :: low :: b :: bs =>
        chip.begins (program chip.page (address high middle low) (b :: bs) f.cells) f
      | _ => f
    else if op = 0x20 ∧ f.wel then
      match arg with
      | [high, middle, low] => chip.begins (erase chip.sector (address high middle low) f.cells) f
      | _ => f
    else f

/-- A frame begins, unless one has begun already. -/
def select (f : Flash) : Flash :=
  match f.frame with
  | none => { f with frame := some [] }
  | some _ => f

/-- The frame ends and is carried out. -/
def release (f : Flash) : Flash :=
  match f.frame with
  | none => f
  | some frame => chip.execute { f with frame := none } frame

/-- What the device answers to the byte behind a frame: its status, or the cells from
the address on. -/
def answer (f : Flash) : List UInt8 → UInt8
  | 0x05 :: _ => status f
  | 0x03 :: high :: middle :: low :: sent =>
    if f.busy ≠ 0 then 0 else f.cells ((address high middle low + sent.length) % 2 ^ 24)
  | _ => 0

/-- Every status byte read brings the end of the current operation nearer. -/
def exchange (b : UInt8) (f : Flash) : UInt8 × Flash :=
  match f.frame with
  | none => (0, f)
  | some frame =>
    (answer f frame,
      { f with
        frame := some (frame ++ [b])
        busy := if frame.head? = some 0x05 then f.busy - 1 else f.busy })

/-- The chip as a device on the bus. -/
def slave : Slave Flash where
  select := select
  release := chip.release
  exchange := exchange

end Chip

end NorFlash
