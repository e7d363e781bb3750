import NeoSfp.SpiFlashOps

/-!
# The image generator

The host tool turns a flat binary into an image: an executable with a header for the
bootloader, or the initial contents of a memory in one of several notations. The binary
is padded with zeros to whole words. Sizes are 32 bits wide, and of a file that is too
large only the low bits of its size are seen.
-/

namespace NeoSfp

/-! ## Words -/

/-- A word from the bytes at a pointer, least significant first. -/
def read32 (p : List UInt8) : UInt32 :=
  (p.getD 0 0).toUInt32 ||| (p.getD 1 0).toUInt32 <<< 8 ||| (p.getD 2 0).toUInt32 <<< 16 |||
    (p.getD 3 0).toUInt32 <<< 24

/-- An output file: what is in front of its position and what is behind it. -/
structure OutFile where
  done : List UInt8 := []
  ahead : List UInt8 := []
deriving DecidableEq, Repr

/-- What the file holds, in front of its position and behind it. -/
def OutFile.contents (f : OutFile) : List UInt8 := f.done ++ f.ahead

/-- Behind the end of the file a character is appended, inside it one is replaced. -/
def OutFile.fputc (f : OutFile) (c : UInt8) : OutFile := ⟨f.done ++ [c], f.ahead.tail⟩

/-- The position goes back to the beginning. -/
def OutFile.rewind (f : OutFile) : OutFile := ⟨[], f.done ++ f.ahead⟩

/-- A word is written least significant byte first. -/
def OutFile.write32 (f : OutFile) (d : UInt32) : OutFile :=
  (((f.fputc (d >>> 0 &&& 0xFF).toUInt8).fputc (d >>> 8 &&& 0xFF).toUInt8).fputc
    (d >>> 16 &&& 0xFF).toUInt8).fputc (d >>> 24 &&& 0xFF).toUInt8

/-! ## Text -/

/-- `%08x`. -/
def hex08 (w : UInt32) : List UInt8 := (List.range 8).map fun k =>
  (bytes "0123456789abcdef").getD (w.toNat / 16 ^ (7 - k) % 16) 0

/-- `%u`. -/
def decimal (n : Nat) : List UInt8 := (Nat.toDigits 10 n).map byte

/-- The string from the last occurrence of the character on. -/
def strrchr (s : List UInt8) (c : UInt8) : Option (List UInt8) :=
  (s.tails.filter fun t => t.head? == some c).getLast?

/-- The name of the output file, without its path and its suffix, in 255 characters. -/
def pkgName (outputFile : List UInt8) : List UInt8 :=
  let filename := match (strrchr outputFile '/').or (strrchr outputFile '\\') with
    | some slash => slash.drop 1
    | none => outputFile
  let name := filename.take 255
  match strrchr name '.' with
  | some suffix => name.take (name.length - suffix.length)
  | none => name

/-! ## Images -/

/-- The formats of an image. -/
inductive Operation where
  | exe
  | vhd
  | bin
  | coe
  | mem
  | mif
deriving DecidableEq, Repr

/-- What has no defined result: a read past the allocated buffer, and a size that the
doubling does not reach. -/
inductive GenFault where
  | buffer
  | doubling
deriving DecidableEq, Repr

/-- `APP_EXE_SIGNATURE`. -/
def signatureC : UInt32 := 0x214F454E

/-- Double until the size is reached. -/
def extend (rawExeSize : UInt32) : Nat → UInt32 → Option UInt32
  | 0, _ => none
  | steps + 1, extExeSize =>
    if extExeSize < rawExeSize then extend rawExeSize steps (extExeSize * 2) else some extExeSize

/-- The words of the padded binary. -/
def imageWords (rawExeSize : UInt32) (rawImage : List UInt8) : List UInt32 :=
  (List.range (rawExeSize.toNat / 4)).map fun n => read32 (rawImage.drop (n * 4))

/-- Room for the header, the words, and then the header in its place. -/
def exeFile (baseAddr rawExeSize : UInt32) (words : List UInt32) : List UInt8 :=
  let reserved := (List.replicate 16 (0 : UInt8)).foldl OutFile.fputc {}
  let (checksum, written) := words.foldl
    (fun (checksum, f) word => (checksum + word, f.write32 word)) ((0 : UInt32), reserved)
  let signed := (written.rewind.write32 signatureC).write32 baseAddr
  ((signed.write32 rawExeSize).write32 (~~~ checksum)).contents

/-- The contents of the output file. -/
def Operation.image (outputFile : List UInt8) (baseAddr rawExeSize extExeSize : UInt32)
    (rawImage : List UInt8) (operation : Operation) : List UInt8 :=
  let words := imageWords rawExeSize rawImage
  match operation with
  | .exe => exeFile baseAddr rawExeSize words
  | .vhd =>
    bytes "library ieee;\nuse ieee.std_logic_1164.all;\n\npackage " ++ pkgName outputFile ++
      bytes " is\n\ntype rom_t is array (0 to " ++ decimal ((extExeSize / 4) - 1).toNat ++
      bytes ") of std_ulogic_vector(31 downto 0);\nconstant image_size_c : natural := " ++
      decimal rawExeSize.toNat ++ bytes ";\nconstant image_data_c : rom_t := (\n" ++
      words.flatMap (fun word => bytes "x\"" ++ hex08 word ++ bytes "\",\n") ++
      bytes "others => (others => '0')\n);\n\nend " ++ pkgName outputFile ++ bytes ";\n"
  | .bin => rawImage
  | .coe =>
    bytes "memory_initialization_radix=16;\nmemory_initialization_vector=\n" ++
      words.zipIdx.flatMap fun (word, n) =>
        if n = words.length - 1 then hex08 word ++ bytes ";\n" else hex08 word ++ bytes ",\n"
  | .mem =>
    words.zipIdx.flatMap fun (word, n) =>
      bytes "@" ++ hex08 (UInt32.ofNat n) ++ bytes " " ++ hex08 word ++ bytes "\n"
  | .mif =>
    bytes "DEPTH = " ++ decimal (rawExeSize / 4).toNat ++
      bytes ";\nWIDTH = 32;\nADDRESS_RADIX = HEX;\nDATA_RADIX = HEX;\nCONTENT\nBEGIN\n" ++
      words.zipIdx.flatMap (fun (word, n) =>
        hex08 (UInt32.ofNat n) ++ bytes " : " ++ hex08 word ++ bytes ";\n") ++
      bytes "END;\n"

/-! ## The tool -/

/-- The machine that the tool runs on: whether the two files can be opened, the largest
`long`, whether so many bytes can be allocated, and how many of the bytes asked for a
read of the input delivers. -/
structure Host where
  opensInput : Bool
  opensOutput : Bool
  longMax : Nat
  calloc : Nat → Bool
  fread : Nat → Nat

/-- `ftell` at the end of a file, -1 where a `long` does not hold its size. -/
def Host.ftell (host : Host) (size : Nat) : Int := if size ≤ host.longMax then size else -1

/-- The tool behind its arguments: the exit code, with the output file where there is
one. `flat` is what the input file holds when both are open. The doubling takes at most
the given steps. The tool does not check its writes, which are taken to succeed. -/
def imageGen (host : Host) (steps : Nat) (operation : Operation) (baseAddr : UInt32)
    (outputFile flat : List UInt8) : Except GenFault (Int × Option (List UInt8)) :=
  if operation = .exe ∧ baseAddr = 0xFFFFFFFF then .ok (-1, none)
  else if ¬ host.opensInput then .ok (-2, none)
  else if ¬ host.opensOutput then .ok (-2, none)
  else
    let flatBinSize := host.ftell flat.length
    if flatBinSize ≤ 0 then .ok (-2, some [])
    else
      let rawExeSize := UInt32.ofNat flatBinSize.toNat
      let paddedSize := (rawExeSize + 3) &&& ~~~ 3
      if ¬ host.calloc paddedSize.toNat then .ok (-1, some [])
      else
        let delivered := min (host.fread rawExeSize.toNat) rawExeSize.toNat
        if paddedSize.toNat < delivered then .error .buffer
        else if delivered ≠ rawExeSize.toNat then .ok (-2, some [])
        else
          let rawImage := flat.take rawExeSize.toNat ++
            List.replicate (paddedSize - rawExeSize).toNat 0
          match extend paddedSize steps 4 with
          | none => .error .doubling
          | some extExeSize =>
            .ok (0, some (operation.image outputFile baseAddr paddedSize extExeSize rawImage))

/-! ## Words and bytes -/

/-- A disjunction with shifted bits is a sum where the low bits are free. -/
theorem or_shift (a b k : Nat) (small : a < 2 ^ k) : a ||| b <<< k = a + b * 2 ^ k := by
  rw [Nat.or_comm, ← Nat.shiftLeft_add_eq_or_of_lt small, Nat.shiftLeft_eq, Nat.add_comm]

/-- A word is the sum of its four bytes, each at its place; a byte behind the end counts
as zero. -/
theorem read32_toNat (p : List UInt8) : (read32 p).toNat = (p.getD 0 0).toNat +
    (p.getD 1 0).toNat * 2 ^ 8 + (p.getD 2 0).toNat * 2 ^ 16 + (p.getD 3 0).toNat * 2 ^ 24 := by
  have zero := (p.getD 0 0).toNat_lt
  have one := (p.getD 1 0).toNat_lt
  have two := (p.getD 2 0).toNat_lt
  have three := (p.getD 3 0).toNat_lt
  have fits (b k : Nat) (small : b < 2 ^ 8) (place : k ≤ 24) : b <<< k % 2 ^ 32 = b <<< k := by
    apply Nat.mod_eq_of_lt
    rw [Nat.shiftLeft_eq]
    calc b * 2 ^ k < 2 ^ 8 * 2 ^ k := Nat.mul_lt_mul_of_pos_right small (Nat.two_pow_pos k)
      _ = 2 ^ (8 + k) := (Nat.pow_add 2 8 k).symm
      _ ≤ 2 ^ 32 := Nat.pow_le_pow_right (by omega) (by omega)
  simp only [read32, UInt32.toNat_or, UInt32.toNat_shiftLeft, UInt8.toNat_toUInt32,
    UInt32.reduceToNat, Nat.reduceMod]
  rw [fits _ 8 one (by omega), fits _ 16 two (by omega), fits _ 24 three (by omega),
    or_shift _ _ 8 zero, or_shift _ _ 16 (by omega), or_shift _ _ 24 (by omega)]

/-- A byte of a word by division and remainder. -/
theorem wordByte_toNat (word : UInt32) (k : Nat) :
    (wordByte word k).toNat = word.toNat / 256 ^ k % 256 := UInt8.toNat_ofNat'

/-- A word is read back from its bytes, whatever stands behind them. -/
theorem read32_wordBytes (word : UInt32) (rest : List UInt8) : read32 (wordBytes word ++ rest) = word := by
  apply UInt32.toNat_inj.mp
  have small := word.toNat_lt
  rw [read32_toNat]
  simp only [wordBytes, List.cons_append, List.getD_cons_zero, List.getD_cons_succ, wordByte_toNat]
  omega

/-- The bytes of a word that was read are those it was read from, where there are
four. -/
theorem wordBytes_read32 (p : List UInt8) (long : 4 ≤ p.length) : wordBytes (read32 p) = p.take 4 := by
  obtain ⟨a, b, c, d, rest, rfl⟩ : ∃ a b c d rest, p = a :: b :: c :: d :: rest := by
    rcases p with _ | ⟨a, _ | ⟨b, _ | ⟨c, _ | ⟨d, rest⟩⟩⟩⟩
    all_goals simp at long ⊢
  have value := read32_toNat (a :: b :: c :: d :: rest)
  simp only [List.getD_cons_zero, List.getD_cons_succ] at value
  have low := a.toNat_lt
  have second := b.toNat_lt
  have third := c.toNat_lt
  have high := d.toNat_lt
  simp only [wordBytes, List.take_succ_cons, List.take_zero, List.cons.injEq, and_true, ← UInt8.toNat_inj,
    wordByte_toNat, value]
  omega

/-- Shift and mask, as the source writes a word, give the byte at its place. -/
theorem masked_byte (d shift : UInt32) (k : Nat) (place : shift.toNat % 32 = 8 * k) :
    (d >>> shift &&& 0xFF).toUInt8 = wordByte d k := by
  have mask : d.toNat / 256 ^ k &&& 255 = d.toNat / 256 ^ k % 256 :=
    Nat.and_two_pow_sub_one_eq_mod _ 8
  rw [← UInt8.toNat_inj, wordByte_toNat, UInt32.toNat_toUInt8, UInt32.toNat_and,
    UInt32.toNat_shiftRight, place, Nat.shiftRight_eq_div_pow, Nat.pow_mul]
  change (d.toNat / 256 ^ k &&& 255) % 2 ^ 8 = _
  rw [mask, Nat.mod_mod]

/-- Writing a word puts its four bytes behind what has been written. -/
@[simp] theorem write32_done (f : OutFile) (d : UInt32) : (f.write32 d).done = f.done ++ wordBytes d := by
  simp only [OutFile.write32, OutFile.fputc, masked_byte d 0 0 rfl, masked_byte d 8 1 rfl,
    masked_byte d 16 2 rfl, masked_byte d 24 3 rfl, wordBytes, List.append_assoc, List.cons_append,
    List.nil_append]

/-- Writing a word overwrites four bytes of what was there before, if there were any. -/
@[simp] theorem write32_ahead (f : OutFile) (d : UInt32) : (f.write32 d).ahead = f.ahead.drop 4 := by
  simp only [OutFile.write32, OutFile.fputc, ← List.drop_one, List.drop_drop]

/-- Words written one after another, with their sum. By induction on the words. -/
theorem foldl_write32 (words : List UInt32) (checksum : UInt32) (f : OutFile) :
    words.foldl (fun (checksum, f) word => (checksum + word, OutFile.write32 f word)) (checksum, f) =
      (checksum + words.sum,
        ⟨f.done ++ words.flatMap wordBytes, f.ahead.drop (words.length * 4)⟩) := by
  induction words generalizing checksum f with
  | nil => simp
  | cons word words ih =>
    have later : 4 + words.length * 4 = (words.length + 1) * 4 := by omega
    rw [List.foldl_cons, ih, write32_done, write32_ahead, List.sum_cons, add_assoc, List.flatMap_cons,
      List.append_assoc, List.drop_drop, later, List.length_cons]

/-- The executable is the header and the words: room is left for the header, and it is
filled in when the checksum is known. -/
theorem exeFile_bytes (baseAddr rawExeSize : UInt32) (words : List UInt32) :
    exeFile baseAddr rawExeSize words =
      [signatureC, baseAddr, rawExeSize, ~~~ words.sum].flatMap wordBytes ++ words.flatMap wordBytes := by
  have reserved : (List.replicate 16 (0 : UInt8)).foldl OutFile.fputc {} = ⟨List.replicate 16 0, []⟩ := by
    decide
  simp only [exeFile, reserved, foldl_write32, OutFile.contents, write32_done, write32_ahead,
    OutFile.rewind, List.drop_nil, List.append_nil, List.drop_drop]
  simp

/-! ## The padded binary -/

/-- Words read one after another have the bytes of the buffer. By induction on how many
are read. -/
theorem range_words (count : Nat) (p : List UInt8) (inside : count * 4 ≤ p.length) :
    ((List.range count).map fun n => read32 (p.drop (n * 4))).flatMap wordBytes = p.take (count * 4) := by
  induction count with
  | zero => simp
  | succ count ih =>
    have long : 4 ≤ (p.drop (count * 4)).length := by
      rw [List.length_drop]
      omega
    rw [List.range_succ, List.map_append, List.flatMap_append, ih (by omega), List.map_singleton,
      List.flatMap_singleton, wordBytes_read32 _ long, Nat.succ_mul, List.take_add]

/-- The words of an image are its bytes, because its size is a multiple of four. -/
theorem imageWords_bytes (rawExeSize : UInt32) (rawImage : List UInt8)
    (whole : rawImage.length = rawExeSize.toNat) (padded : 4 ∣ rawExeSize.toNat) :
    (imageWords rawExeSize rawImage).flatMap wordBytes = rawImage := by
  rw [imageWords, range_words _ _ (by omega), Nat.div_mul_cancel padded, List.take_of_length_le (by omega)]

/-- Clearing the two low bits rounds down to a multiple of four. -/
theorem align_toNat (x : UInt32) : (x &&& ~~~ 3).toNat = x.toNat / 4 * 4 := by
  have mask : (~~~ 3 : UInt32).toNat = (2 ^ 30 - 1) * 2 ^ 2 := rfl
  have parts : x.toNat / 4 * 4 = x.toNat / 2 ^ 2 % 2 ^ 30 * 2 ^ 2 := by
    have small := x.toNat_lt
    omega
  rw [UInt32.toNat_and, mask, parts, ← Nat.and_two_pow_sub_one_eq_mod]
  apply Nat.eq_of_testBit_eq
  intro i
  simp only [Nat.testBit_and, Nat.testBit_mul_two_pow, Nat.testBit_div_two_pow]
  by_cases low : 2 ≤ i
  · simp [low]
  · simp [low]

/-- The size that the binary is padded to. -/
def paddedLength (flat : List UInt8) : Nat := (flat.length + 3) / 4 * 4

/-- The binary with its padding. -/
def padded (flat : List UInt8) : List UInt8 :=
  flat ++ List.replicate (paddedLength flat - flat.length) 0

/-- The padded size is a whole number of words. -/
theorem paddedLength_multiple (flat : List UInt8) : 4 ∣ paddedLength flat := Nat.dvd_mul_left 4 _

/-- The padded binary has the padded size. -/
theorem padded_length (flat : List UInt8) : (padded flat).length = paddedLength flat := by
  have longer : flat.length ≤ paddedLength flat := by
    unfold paddedLength
    omega
  rw [padded, List.length_append, List.length_replicate]
  omega

/-- The powers of two from `2 ^ j` on that are no smaller than the size. -/
def RomSizes (j size : Nat) : Set Nat := { n | ∃ k, j ≤ k ∧ n = 2 ^ k ∧ size ≤ n }

/-- A power of two that is large enough is the least of those from it on. -/
theorem romSizes_least {j size : Nat} (covered : size ≤ 2 ^ j) : IsLeast (RomSizes j size) (2 ^ j) := by
  refine ⟨⟨j, Nat.le_refl j, rfl, covered⟩, ?_⟩
  rintro n ⟨k, above, rfl, -⟩
  exact Nat.pow_le_pow_right (by omega) above

/-- A power of two that is too small is none of them, so the search may begin with the
next. -/
theorem romSizes_skip {j size : Nat} (below : 2 ^ j < size) : RomSizes (j + 1) size = RomSizes j size := by
  ext n
  constructor
  · rintro ⟨k, above, rfl, covers⟩
    exact ⟨k, by omega, rfl, covers⟩
  · rintro ⟨k, above, rfl, covers⟩
    have different : k ≠ j := by
      rintro rfl
      omega
    exact ⟨k, by omega, rfl, covers⟩

/-- Doubling a power of two gives the next one, as long as it fits 32 bits. -/
theorem doubled_power {extExeSize : UInt32} {j : Nat} (power : extExeSize.toNat = 2 ^ j) (small : j < 31) :
    (extExeSize * 2).toNat = 2 ^ (j + 1) := by
  have most : 2 ^ (j + 1) ≤ 2 ^ 31 := Nat.pow_le_pow_right (by omega) (by omega)
  have two : (2 : UInt32).toNat = 2 := rfl
  rw [UInt32.toNat_mul, power, two, ← Nat.pow_succ, Nat.mod_eq_of_lt (by omega)]

/-- Where the doubling of a power of two ends, it has found the least one that is no
smaller than the size. By induction on the steps: below a size of at most 2 GiB the
product fits. -/
theorem extend_least {rawExeSize size : UInt32} (fits : rawExeSize.toNat ≤ 2 ^ 31) (steps j : Nat)
    (extExeSize : UInt32) (power : extExeSize.toNat = 2 ^ j)
    (reached : extend rawExeSize steps extExeSize = some size) :
    IsLeast (RomSizes j rawExeSize.toNat) size.toNat := by
  induction steps generalizing j extExeSize with
  | zero => cases reached
  | succ steps ih =>
    have compared : extExeSize < rawExeSize ↔ 2 ^ j < rawExeSize.toNat := by
      rw [UInt32.lt_iff_toNat_lt, power]
    rw [extend] at reached
    by_cases below : 2 ^ j < rawExeSize.toNat
    · have small : j < 31 := (Nat.pow_lt_pow_iff_right (by omega)).mp (Nat.lt_of_lt_of_le below fits)
      rw [if_pos (compared.mpr below)] at reached
      rw [← romSizes_skip below]
      exact ih (j + 1) (extExeSize * 2) (doubled_power power small) reached
    · rw [if_neg (mt compared.mp below)] at reached
      obtain rfl := Option.some.inj reached
      rw [power]
      exact romSizes_least (Nat.le_of_not_lt below)

/-- The doubling of a power of two ends for every size that it can reach. By induction on
the doublings that are left before the product would not fit. -/
theorem extend_reaches (rawExeSize : UInt32) (fits : rawExeSize.toNat ≤ 2 ^ 31) (left j steps : Nat)
    (extExeSize : UInt32) (power : extExeSize.toNat = 2 ^ j) (total : j + left = 31) (enough : left < steps) :
    ∃ size, extend rawExeSize steps extExeSize = some size := by
  induction left generalizing j steps extExeSize with
  | zero =>
    obtain ⟨steps, rfl⟩ := Nat.exists_eq_add_one_of_ne_zero (show steps ≠ 0 by omega)
    have last : ¬ extExeSize < rawExeSize := by
      rw [UInt32.lt_iff_toNat_lt, power]
      obtain rfl : j = 31 := by omega
      omega
    exact ⟨extExeSize, by rw [extend, if_neg last]⟩
  | succ left ih =>
    obtain ⟨steps, rfl⟩ := Nat.exists_eq_add_one_of_ne_zero (show steps ≠ 0 by omega)
    rw [extend]
    split
    · exact ih (j + 1) steps (extExeSize * 2) (doubled_power power (by omega)) (by omega) (by omega)
    · exact ⟨extExeSize, rfl⟩

/-- A power of two, or nothing, doubled never reaches a larger size: behind the highest
bit the doubling gives zero, and stays there. -/
theorem extend_misses (rawExeSize : UInt32) (large : 2 ^ 31 < rawExeSize.toNat) (steps : Nat)
    (extExeSize : UInt32) (power : extExeSize.toNat = 0 ∨ ∃ j ≤ 31, extExeSize.toNat = 2 ^ j) :
    extend rawExeSize steps extExeSize = none := by
  induction steps generalizing extExeSize with
  | zero => rfl
  | succ steps ih =>
    have below : extExeSize < rawExeSize := by
      rw [UInt32.lt_iff_toNat_lt]
      obtain zero | ⟨j, small, power⟩ := power
      · omega
      · have most : 2 ^ j ≤ 2 ^ 31 := Nat.pow_le_pow_right (by omega) small
        omega
    rw [extend, if_pos below]
    apply ih
    have two : (2 : UInt32).toNat = 2 := rfl
    rw [UInt32.toNat_mul, two]
    obtain zero | ⟨j, small, power⟩ := power
    · omega
    · by_cases last : j = 31
      · left
        rw [power, last]
        omega
      · right
        have most : 2 ^ (j + 1) ≤ 2 ^ 31 := Nat.pow_le_pow_right (by omega) (by omega)
        exact ⟨j + 1, by omega, by rw [power, ← Nat.pow_succ, Nat.mod_eq_of_lt (by omega)]⟩

/-- What the tool sees of a file: its size is taken modulo 2 ^ 32. -/
def seenPart (flat : List UInt8) : List UInt8 := flat.take (flat.length % 2 ^ 32)

/-- The part that is seen has the size modulo 2 to the 32. -/
theorem seenPart_length (flat : List UInt8) : (seenPart flat).length = flat.length % 2 ^ 32 := by
  rw [seenPart, List.length_take, Nat.min_eq_left (Nat.mod_le _ _)]

/-- Of a file below 4 GiB everything is seen. -/
theorem seenPart_small (flat : List UInt8) (small : flat.length < 2 ^ 32) : seenPart flat = flat := by
  rw [seenPart, Nat.mod_eq_of_lt small, List.take_length]

/-- The size in 32 bits is the size modulo 2 to the 32. -/
theorem raw_toNat (flat : List UInt8) : (UInt32.ofNat flat.length).toNat = flat.length % 2 ^ 32 :=
  UInt32.toNat_ofNat'

/-- The aligned size as the source computes it in 32 bits, where the addition may
wrap. -/
theorem aligned_toNat (flat : List UInt8) : (UInt32.ofNat flat.length + 3 &&& ~~~ 3).toNat =
    (flat.length % 2 ^ 32 + 3) % 2 ^ 32 / 4 * 4 := by
  have three : (3 : UInt32).toNat = 3 := rfl
  rw [align_toNat, UInt32.toNat_add, raw_toNat, three]

/-- Up to 2 GiB the aligned size is the padded size of what is seen, and nothing
wraps. -/
theorem aligned_seen (flat : List UInt8) (fits : flat.length % 2 ^ 32 ≤ 2 ^ 31) :
    UInt32.ofNat flat.length + 3 &&& ~~~ 3 = UInt32.ofNat (paddedLength (seenPart flat)) ∧
      (UInt32.ofNat (paddedLength (seenPart flat))).toNat = paddedLength (seenPart flat) := by
  have aligned : (UInt32.ofNat flat.length + 3 &&& ~~~ 3).toNat = paddedLength (seenPart flat) := by
    rw [aligned_toNat, paddedLength, seenPart_length,
      Nat.mod_eq_of_lt (a := flat.length % 2 ^ 32 + 3) (by omega)]
  rw [← aligned, UInt32.ofNat_toNat]
  exact ⟨rfl, rfl⟩

/-- What the tool needs of its host to write an image of this file. -/
structure Host.Serves (host : Host) (flat : List UInt8) : Prop where
  input : host.opensInput = true
  output : host.opensOutput = true
  size : flat.length ≤ host.longMax
  memory : host.calloc (paddedLength (seenPart flat)) = true
  data : (seenPart flat).length ≤ host.fread (seenPart flat).length

section

variable {host : Host} {steps : Nat} {operation : Operation} {baseAddr : UInt32}
  {outputFile flat : List UInt8}

/-- The tool on a file whose size is seen to be at most 2 GiB: what is left to happen is
the doubling. -/
theorem imageGen_seen (some_base : ¬(operation = .exe ∧ baseAddr = 0xFFFFFFFF)) (nonempty : flat ≠ [])
    (fits : flat.length % 2 ^ 32 ≤ 2 ^ 31) (serves : host.Serves flat) :
    imageGen host steps operation baseAddr outputFile flat =
      match extend (UInt32.ofNat (paddedLength (seenPart flat))) steps 4 with
      | none => .error .doubling
      | some extExeSize =>
        .ok (0, some (operation.image outputFile baseAddr (UInt32.ofNat (paddedLength (seenPart flat)))
          extExeSize (padded (seenPart flat)))) := by
  have positive := List.length_pos_of_ne_nil nonempty
  have told : host.ftell flat.length = flat.length := if_pos serves.size
  have counted : ¬ (flat.length : Int) ≤ 0 := by omega
  have raw := raw_toNat flat
  obtain ⟨size, value⟩ := aligned_seen flat fits
  have longer : flat.length % 2 ^ 32 ≤ paddedLength (seenPart flat) := by
    rw [paddedLength, seenPart_length]
    omega
  have memory : ¬¬ host.calloc (UInt32.ofNat (paddedLength (seenPart flat))).toNat = true := by
    rw [value]
    exact not_not.mpr serves.memory
  have delivered : min (host.fread (UInt32.ofNat flat.length).toNat) (UInt32.ofNat flat.length).toNat =
      (UInt32.ofNat flat.length).toNat := by
    have data := serves.data
    rw [seenPart_length, ← raw] at data
    exact Nat.min_eq_right data
  have room : ¬ (UInt32.ofNat (paddedLength (seenPart flat))).toNat < (UInt32.ofNat flat.length).toNat := by
    rw [value, raw]
    omega
  have fill : (UInt32.ofNat (paddedLength (seenPart flat)) - UInt32.ofNat flat.length).toNat =
      paddedLength (seenPart flat) - (seenPart flat).length := by
    rw [UInt32.toNat_sub_of_le _ _ (by rw [UInt32.le_iff_toNat_le, value, raw]; exact longer), value, raw,
      seenPart_length]
  have visible : flat.take (UInt32.ofNat flat.length).toNat = seenPart flat := by rw [raw, seenPart]
  rw [imageGen, if_neg some_base, if_neg (not_not.mpr serves.input), if_neg (not_not.mpr serves.output)]
  simp only [told, if_neg counted, Int.toNat_natCast, size, if_neg memory, delivered, if_neg room, ne_eq,
    not_true_eq_false, if_false, fill, visible, padded]

/-- The doubling ends, so such a file is written. What remains is the size that the
doubling ends with. -/
theorem imageGen_writes (enough : 30 ≤ steps) (some_base : ¬(operation = .exe ∧ baseAddr = 0xFFFFFFFF))
    (nonempty : flat ≠ []) (fits : flat.length % 2 ^ 32 ≤ 2 ^ 31) (serves : host.Serves flat) :
    ∃ extExeSize, imageGen host steps operation baseAddr outputFile flat =
      .ok (0, some (operation.image outputFile baseAddr (UInt32.ofNat (paddedLength (seenPart flat)))
        extExeSize (padded (seenPart flat)))) := by
  obtain ⟨-, value⟩ := aligned_seen flat fits
  have small : (UInt32.ofNat (paddedLength (seenPart flat))).toNat ≤ 2 ^ 31 := by
    rw [value, paddedLength, seenPart_length]
    omega
  obtain ⟨extExeSize, reached⟩ := extend_reaches _ small 29 2 steps 4 rfl rfl (by omega)
  refine ⟨extExeSize, ?_⟩
  rw [imageGen_seen some_base nonempty fits serves, reached]

/-- Nothing else is written: without the host's help the tool gives up, and a file that
is seen to be larger makes it read past its buffer or double without an end. -/
theorem imageGen_written {file : List UInt8}
    (returned : imageGen host steps operation baseAddr outputFile flat = .ok (0, some file)) :
    ¬(operation = .exe ∧ baseAddr = 0xFFFFFFFF) ∧ flat ≠ [] ∧ flat.length % 2 ^ 32 ≤ 2 ^ 31 ∧
      host.Serves flat := by
  unfold imageGen at returned
  by_cases no_base : operation = .exe ∧ baseAddr = 0xFFFFFFFF
  · simp [no_base] at returned
  by_cases input : host.opensInput = true
  swap
  · simp [no_base, input] at returned
  by_cases output : host.opensOutput = true
  swap
  · simp [no_base, input, output] at returned
  by_cases counted : host.ftell flat.length ≤ 0
  · simp [no_base, input, output, counted] at returned
  have size : flat.length ≤ host.longMax := by
    by_contra large
    rw [Host.ftell, if_neg large] at counted
    omega
  have told : host.ftell flat.length = flat.length := if_pos size
  have nonempty : flat ≠ [] := by
    rintro rfl
    rw [told] at counted
    simp at counted
  rw [told] at counted
  rw [if_neg no_base, if_neg (not_not.mpr input), if_neg (not_not.mpr output)] at returned
  simp only [told, if_neg counted, Int.toNat_natCast] at returned
  by_cases memory : host.calloc (UInt32.ofNat flat.length + 3 &&& ~~~ 3).toNat = true
  swap
  · rw [if_pos memory] at returned
    cases returned
  rw [if_neg (not_not.mpr memory)] at returned
  split at returned
  · cases returned
  next room =>
  split at returned
  · simp at returned
  next whole =>
  rw [ne_eq, not_not] at whole
  rw [whole] at room
  have raw := raw_toNat flat
  have aligned := aligned_toNat flat
  have fits : flat.length % 2 ^ 32 ≤ 2 ^ 31 := by
    by_contra large
    have missed := extend_misses (UInt32.ofNat flat.length + 3 &&& ~~~ 3) (by omega) steps 4
      (Or.inr ⟨2, by omega, rfl⟩)
    simp [missed] at returned
  obtain ⟨padding, value⟩ := aligned_seen flat fits
  rw [padding, value] at memory
  refine ⟨no_base, nonempty, fits, input, output, size, memory, ?_⟩
  rw [seenPart_length, ← raw]
  omega

end

end NeoSfp
