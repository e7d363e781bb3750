import NeoSfp.NorFlash

/-!
# Blocks of a NOR flash

A chip may have a second erase command, which erases a block of sectors at once. In
every other command it is the chip that it is without it.
-/

namespace NorFlash

structure BlockChip where
  chip : Chip
  block : Nat

namespace BlockChip

variable (chip : BlockChip)

/-- The chip with its blocks for sectors. -/
def coarse : Chip := { chip.chip with sector := chip.block }

def execute (f : Flash) : List UInt8 → Flash
  | 0xD8 :: arg => chip.coarse.execute f (0x20 :: arg)
  | frame => chip.chip.execute f frame

/-- The frame ends and is carried out. -/
def release (f : Flash) : Flash :=
  match f.frame with
  | none => f
  | some frame => chip.execute { f with frame := none } frame

/-- The chip on the bus. -/
def slave : Slave Flash where
  select := Chip.select
  release := chip.release
  exchange := Chip.exchange

/-- The second erase command erases a whole block: it is the chip's own erase with
blocks in the place of sectors. -/
theorem execute_erase (f : Flash) (arg : List UInt8) :
    chip.execute f (0xD8 :: arg) = chip.coarse.execute f (0x20 :: arg) := rfl

/-- Every other command is carried out as by the chip without blocks. -/
theorem execute_other (f : Flash) (op : UInt8) (arg : List UInt8) (other : op ≠ 0xD8) :
    chip.execute f (op :: arg) = chip.chip.execute f (op :: arg) := by
  unfold execute
  split
  · rename_i same
    exact absurd (List.cons.inj same).1 other
  · rfl

end BlockChip

end NorFlash
