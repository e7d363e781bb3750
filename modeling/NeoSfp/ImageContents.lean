import NeoSfp.ImageGen
import NeoSfp.PlainText

/-!
# What the images hold

An image is made to be read: by the bootloader, by a synthesis tool, or by a simulator
that loads it into a memory. For each format there is a reader here that knows nothing
of the tool. From the image of a binary it gets the words of the padded binary, each at
its place, and so the binary itself.
-/

namespace NeoSfp

/-! ## Lines -/

/-- What is found in the lines of a text, one after the other. -/
def textEntries {α : Type} (entry : Text → Option α) (text : Text) : List α :=
  (text.splitOn (byte '\n')).filterMap entry

/-- A line without a newline of its own is cut off the text. -/
theorem splitOn_line {line : Text} (plain : byte '\n' ∉ line) (rest : Text) :
    (line ++ byte '\n' :: rest).splitOn (byte '\n') = line :: rest.splitOn (byte '\n') := by
  rw [List.splitOn_eq_splitOnP, List.splitOn_eq_splitOnP]
  apply List.splitOnP_append_cons_of_forall_mem
  · intro ch member
    exact beq_false_of_ne fun same => plain (same ▸ member)
  · exact beq_self_eq_true _

section

variable {α β : Type} {entry : Text → Option α} {line : Text}

/-- What is found in a text is found in its first line and then in the rest. -/
theorem textEntries_line (plain : byte '\n' ∉ line) (rest : Text) :
    textEntries entry (line ++ byte '\n' :: rest) = (entry line).toList ++ textEntries entry rest := by
  rw [textEntries, splitOn_line plain, List.filterMap_cons, textEntries]
  cases entry line <;> rfl

/-- A line in which nothing is found may be left out, so headers do not disturb a
reader. -/
theorem textEntries_skip (plain : byte '\n' ∉ line) (nothing : entry line = none) (rest : Text) :
    textEntries entry (line ++ byte '\n' :: rest) = textEntries entry rest := by
  rw [textEntries_line plain, nothing]
  rfl

/-- Of lines made from values, each of which shows its value, the values are found. -/
theorem textEntries_data (items : List β) (lineOf : β → Text) (value : β → α)
    (plain : ∀ item ∈ items, byte '\n' ∉ lineOf item)
    (shows : ∀ item ∈ items, entry (lineOf item) = some (value item)) (rest : Text) :
    textEntries entry (items.flatMap (fun item => lineOf item ++ [byte '\n']) ++ rest) =
      items.map value ++ textEntries entry rest := by
  induction items with
  | nil => rfl
  | cons item items ih =>
    obtain ⟨own, others⟩ := List.forall_mem_cons.mp plain
    obtain ⟨first, behind⟩ := List.forall_mem_cons.mp shows
    rw [List.flatMap_cons, List.append_assoc, List.append_assoc, List.singleton_append,
      textEntries_line own, first, ih others behind]
    rfl

/-- In an empty text nothing is found. -/
theorem textEntries_nil (nothing : entry [] = none) : textEntries entry [] = [] := by
  simp [textEntries, nothing]

end

/-! ## Numbers -/

/-- A word from eight hexadecimal digits. -/
def readHex (text : Text) : Option UInt32 :=
  if text.length = 8 then (readDigits 16 0 text).map UInt32.ofNat else none

/-- A word is written with eight digits. -/
theorem hex08_length (w : UInt32) : (hex08 w).length = 8 := by
  rw [hex08, List.length_map, List.length_range]

/-- The digits are those of the value in base 16, the least significant last. -/
theorem hex08_digits (w : UInt32) : hex08 w =
    ((List.range 8).map fun k => w.toNat / 16 ^ k % 16).reverse.map (digitChar false) := by
  have chars : ∀ digit < 16, (bytes "0123456789abcdef").getD digit 0 = digitChar false digit := by
    decide
  have small (k : Nat) : w.toNat / 16 ^ k % 16 < 16 := Nat.mod_lt _ (by decide)
  have each : hex08 w = (List.range 8).map fun k => digitChar false (w.toNat / 16 ^ (7 - k) % 16) :=
    List.map_congr_left fun k _ => chars _ (small (7 - k))
  rw [each, ← List.map_reverse, List.map_map]
  rfl

/-- A word is read back from its eight digits. -/
theorem readHex_hex08 (w : UInt32) : readHex (hex08 w) = some w := by
  have size := w.toNat_lt
  have value : Nat.ofDigits 16 ((List.range 8).map fun k => w.toNat / 16 ^ k % 16) = w.toNat := by
    simp only [show List.range 8 = [0, 1, 2, 3, 4, 5, 6, 7] from rfl, List.map_cons, List.map_nil,
      Nat.ofDigits_cons, Nat.ofDigits_nil, Nat.reducePow, Nat.div_one]
    omega
  have digits : ∀ digit ∈ (List.range 8).map (fun k => w.toNat / 16 ^ k % 16), digit < 16 := by
    intro digit member
    obtain ⟨k, -, rfl⟩ := List.mem_map.mp member
    exact Nat.mod_lt _ (by decide)
  rw [readHex, if_pos (hex08_length w), hex08_digits,
    readDigits_digits (by simp [IsBase]) false _ digits, value, Option.map_some, UInt32.ofNat_toNat]

/-- A word is written inside a line. -/
theorem hex08_plain (w : UInt32) : byte '\n' ∉ hex08 w := by
  have chars : ∀ digit < 16, digitChar false digit ≠ byte '\n' := by decide
  rw [hex08_digits]
  intro member
  obtain ⟨digit, inside, same⟩ := List.mem_map.mp member
  obtain ⟨k, -, rfl⟩ := List.mem_map.mp (List.mem_reverse.mp inside)
  exact chars _ (Nat.mod_lt _ (by decide)) same

/-- The characters of a number have codes from that of the zero on, so none of them is a
blank or a newline. -/
theorem decimal_digit (n : Nat) : ∀ c ∈ decimal n, 48 ≤ c.toNat := by
  intro c member
  obtain ⟨d, inside, rfl⟩ := List.mem_map.mp member
  have digit := Nat.isDigit_of_mem_toDigits (by decide) (by decide) inside
  rw [Char.isDigit, Bool.and_eq_true, decide_eq_true_eq, decide_eq_true_eq, ge_iff_le,
    UInt32.le_iff_toNat_le, UInt32.le_iff_toNat_le] at digit
  have code : (byte d).toNat = d.toNat := by
    rw [byte, UInt8.toNat_ofNat', Nat.mod_eq_of_lt]
    exact Nat.lt_of_le_of_lt digit.2 (by decide)
  rw [code]
  exact digit.1

/-- A number is written inside a line. -/
theorem decimal_plain (n : Nat) : byte '\n' ∉ decimal n :=
  fun member => absurd (decimal_digit n _ member) (by decide)

/-! ## Names -/

/-- What stands behind the last place of a character is the end of the text. -/
theorem strrchr_suffix {s t : List UInt8} {c : UInt8} (found : strrchr s c = some t) : t <:+ s := by
  have member := List.mem_of_mem_filter (List.mem_of_getLast? found)
  exact (List.mem_tails _ _).mp member

/-- The name of the package is cut out of the file's name: what is behind the last slash,
up to the last dot. -/
theorem pkgName_subset (outputFile : List UInt8) : pkgName outputFile ⊆ outputFile := by
  have part {name : List UInt8} (inside : name ⊆ outputFile) (n : Nat) : name.take n ⊆ outputFile :=
    List.Subset.trans (List.take_subset n name) inside
  have behind : ∀ slash, (strrchr outputFile '/').or (strrchr outputFile '\\') = some slash →
      slash.drop 1 ⊆ outputFile := by
    intro slash found
    have suffix : slash <:+ outputFile := by
      rcases Option.or_eq_some_iff.mp found with first | ⟨-, second⟩
      · exact strrchr_suffix first
      · exact strrchr_suffix second
    exact List.Subset.trans (List.drop_subset 1 slash) suffix.subset
  unfold pkgName
  cases found : (strrchr outputFile '/').or (strrchr outputFile '\\') with
  | none =>
    dsimp only
    split
    · exact part (part (List.Subset.refl outputFile) 255) _
    · exact part (List.Subset.refl outputFile) 255
  | some slash =>
    dsimp only
    split
    · exact part (part (behind slash found) 255) _
    · exact part (behind slash found) 255

/-! ## Readers -/

/-- Words from bytes, least significant first. -/
def readWords : List UInt8 → List UInt32
  | a :: b :: c :: d :: rest => read32 [a, b, c, d] :: readWords rest
  | _ => []

/-- Words are read back from their bytes. By induction on them. -/
theorem readWords_wordBytes (words : List UInt32) : readWords (words.flatMap wordBytes) = words := by
  induction words with
  | nil => rfl
  | cons word words ih =>
    have first : read32 (wordBytes word) = word := by
      rw [← List.append_nil (wordBytes word), read32_wordBytes]
    rw [List.flatMap_cons]
    exact congrArg₂ List.cons first ih

/-- Words at consecutive places. -/
def places (words : List UInt32) : List (Nat × UInt32) := words.zipIdx.map Prod.swap

/-- A line of a VHDL array. -/
def vhdWord (line : Text) : Option UInt32 :=
  if line.take 2 = bytes "x\"" then readHex ((line.drop 2).take 8) else none

/-- A line of a COE vector. -/
def coeWord (line : Text) : Option UInt32 :=
  if line.length = 9 then readHex (line.take 8) else none

/-- A line of a MEM file: a place and a word. -/
def memEntry (line : Text) : Option (Nat × UInt32) :=
  if line.take 1 = bytes "@" then do
    let place ← readHex ((line.drop 1).take 8)
    let word ← readHex ((line.drop 10).take 8)
    some (place.toNat, word)
  else none

/-- A line of the content of a MIF file: a place and a word. -/
def mifEntry (line : Text) : Option (Nat × UInt32) :=
  if (line.drop 8).take 3 = bytes " : " then do
    let place ← readHex (line.take 8)
    let word ← readHex ((line.drop 11).take 8)
    some (place.toNat, word)
  else none

/-- What a file of the format puts into a memory: words, with their places. -/
def Operation.read (operation : Operation) (file : List UInt8) : List (Nat × UInt32) :=
  match operation with
  | .exe => places (readWords (file.drop 16))
  | .vhd => places (textEntries vhdWord file)
  | .bin => places (readWords file)
  | .coe => places (textEntries coeWord file)
  | .mem => textEntries memEntry file
  | .mif => textEntries mifEntry file

/-! ## Written and read -/

def memLine (item : UInt32 × Nat) : Text :=
  bytes "@" ++ (hex08 (UInt32.ofNat item.2) ++ (bytes " " ++ hex08 item.1))

def mifLine (item : UInt32 × Nat) : Text :=
  hex08 (UInt32.ofNat item.2) ++ (bytes " : " ++ (hex08 item.1 ++ bytes ";"))

def vhdLine (word : UInt32) : Text := bytes "x\"" ++ (hex08 word ++ bytes "\",")

def coeLine (count : Nat) (item : UInt32 × Nat) : Text :=
  hex08 item.1 ++ (if item.2 = count - 1 then bytes ";" else bytes ",")

/-- A line of the VHDL array shows its word. -/
theorem vhdLine_shows (word : UInt32) : vhdWord (vhdLine word) = some word := by
  have digits : ((vhdLine word).drop 2).take 8 = hex08 word := List.take_left' (hex08_length word)
  have starts : (vhdLine word).take 2 = bytes "x\"" := rfl
  rw [vhdWord, digits, readHex_hex08, if_pos starts]

/-- A line of the COE vector shows its word, whether a comma or the last semicolon
follows it. -/
theorem coeLine_shows (count : Nat) (item : UInt32 × Nat) : coeWord (coeLine count item) = some item.1 := by
  have length : (coeLine count item).length = 9 := by
    rw [coeLine, List.length_append, hex08_length]
    split <;> rfl
  rw [coeWord, if_pos length, coeLine, List.take_left' (hex08_length _), readHex_hex08]

/-- A line of the MEM file shows its word and its place, which must fit eight digits. -/
theorem memLine_shows (item : UInt32 × Nat) (inside : item.2 < 2 ^ 32) :
    memEntry (memLine item) = some (item.2, item.1) := by
  have place : ((memLine item).drop 1).take 8 = hex08 (UInt32.ofNat item.2) :=
    List.take_left' (hex08_length _)
  have word : ((memLine item).drop 10).take 8 = hex08 item.1 := by
    have behind : (memLine item).drop 10 =
        ((hex08 (UInt32.ofNat item.2) ++ (bytes " " ++ hex08 item.1)).drop 8).drop 1 := by
      rw [List.drop_drop]
      rfl
    rw [behind, List.drop_left' (hex08_length _)]
    exact List.take_of_length_le (hex08_length _).le
  have value : (UInt32.ofNat item.2).toNat = item.2 := UInt32.toNat_ofNat_of_lt' inside
  have starts : (memLine item).take 1 = bytes "@" := rfl
  rw [memEntry, if_pos starts, place, word, readHex_hex08, readHex_hex08]
  exact congrArg (fun place => some (place, item.1)) value

/-- A line of the MIF content shows its word and its place, which must fit eight
digits. -/
theorem mifLine_shows (item : UInt32 × Nat) (inside : item.2 < 2 ^ 32) :
    mifEntry (mifLine item) = some (item.2, item.1) := by
  have place : (mifLine item).take 8 = hex08 (UInt32.ofNat item.2) := List.take_left' (hex08_length _)
  have behind : (mifLine item).drop 8 = bytes " : " ++ (hex08 item.1 ++ bytes ";") :=
    List.drop_left' (hex08_length _)
  have word : ((mifLine item).drop 11).take 8 = hex08 item.1 := by
    have later : (mifLine item).drop 11 = ((mifLine item).drop 8).drop 3 := by
      rw [List.drop_drop]
    rw [later, behind]
    exact List.take_left' (hex08_length _)
  have value : (UInt32.ofNat item.2).toNat = item.2 := UInt32.toNat_ofNat_of_lt' inside
  have between : ((mifLine item).drop 8).take 3 = bytes " : " := by rw [behind]; rfl
  rw [mifEntry, if_pos between, place, word, readHex_hex08, readHex_hex08]
  exact congrArg (fun place => some (place, item.1)) value

/-- A line of the VHDL array has no newline inside. -/
theorem vhdLine_plain (word : UInt32) : byte '\n' ∉ vhdLine word := by
  simp only [vhdLine, List.mem_append, not_or]
  exact ⟨by decide, hex08_plain word, by decide⟩

/-- A line of the COE vector has no newline inside. -/
theorem coeLine_plain (count : Nat) (item : UInt32 × Nat) : byte '\n' ∉ coeLine count item := by
  rw [coeLine, List.mem_append, not_or]
  refine ⟨hex08_plain _, ?_⟩
  split <;> decide

/-- A line of the MEM file has no newline inside. -/
theorem memLine_plain (item : UInt32 × Nat) : byte '\n' ∉ memLine item := by
  simp only [memLine, List.mem_append, not_or]
  exact ⟨by decide, hex08_plain _, by decide, hex08_plain _⟩

/-- A line of the MIF content has no newline inside. -/
theorem mifLine_plain (item : UInt32 × Nat) : byte '\n' ∉ mifLine item := by
  simp only [mifLine, List.mem_append, not_or]
  exact ⟨hex08_plain _, by decide, hex08_plain _, by decide⟩

/-! ## Texts in lines -/

section

variable (outputFile : List UInt8) (baseAddr rawExeSize extExeSize : UInt32) (rawImage : List UInt8)

/-- The line that declares the type of the VHDL array. -/
def romLine (extExeSize : UInt32) : Text :=
  bytes "type rom_t is array (0 to " ++ (decimal ((extExeSize / 4) - 1).toNat ++
    bytes ") of std_ulogic_vector(31 downto 0);")

def sizeLine (rawExeSize : UInt32) : Text :=
  bytes "constant image_size_c : natural := " ++ (decimal rawExeSize.toNat ++ bytes ";")

def depthLine (rawExeSize : UInt32) : Text :=
  bytes "DEPTH = " ++ (decimal (rawExeSize / 4).toNat ++ bytes ";")

/-- The line with the size of the array has no newline inside. -/
theorem romLine_plain (extExeSize : UInt32) : byte '\n' ∉ romLine extExeSize := by
  simp only [romLine, List.mem_append, not_or]
  exact ⟨by decide, decimal_plain _, by decide⟩

/-- The line with the size of the image has no newline inside. -/
theorem sizeLine_plain (rawExeSize : UInt32) : byte '\n' ∉ sizeLine rawExeSize := by
  simp only [sizeLine, List.mem_append, not_or]
  exact ⟨by decide, decimal_plain _, by decide⟩

/-- The line with the depth of the memory has no newline inside. -/
theorem depthLine_plain (rawExeSize : UInt32) : byte '\n' ∉ depthLine rawExeSize := by
  simp only [depthLine, List.mem_append, not_or]
  exact ⟨by decide, decimal_plain _, by decide⟩

/-- The depth of a MIF file is not taken for an entry: a number has no blank in it. -/
theorem depthLine_none (rawExeSize : UInt32) : mifEntry (depthLine rawExeSize) = none := by
  have behind : (depthLine rawExeSize).drop 8 = decimal (rawExeSize / 4).toNat ++ bytes ";" := rfl
  rw [mifEntry, behind, if_neg]
  intro same
  have blank : byte ' ' ∈ (decimal (rawExeSize / 4).toNat ++ bytes ";").take 3 := by
    rw [same]
    decide
  rcases List.mem_append.mp (List.mem_of_mem_take blank) with number | semicolon
  · exact absurd (decimal_digit _ _ number) (by decide)
  · exact absurd semicolon (by decide)

/-- The VHDL package, line by line: its header, one line for each word, and its end. -/
theorem image_vhd : Operation.vhd.image outputFile baseAddr rawExeSize extExeSize rawImage =
    bytes "library ieee;" ++ byte '\n' :: (bytes "use ieee.std_logic_1164.all;" ++ byte '\n' ::
      ([] ++ byte '\n' :: ((bytes "package " ++ (pkgName outputFile ++ bytes " is")) ++ byte '\n' ::
      ([] ++ byte '\n' :: (romLine extExeSize ++ byte '\n' :: (sizeLine rawExeSize ++ byte '\n' ::
      (bytes "constant image_data_c : rom_t := (" ++ byte '\n' ::
      ((imageWords rawExeSize rawImage).flatMap (fun word => vhdLine word ++ [byte '\n']) ++
      (bytes "others => (others => '0')" ++ byte '\n' :: (bytes ");" ++ byte '\n' ::
      ([] ++ byte '\n' :: ((bytes "end " ++ (pkgName outputFile ++ bytes ";")) ++
      byte '\n' :: [])))))))))))) := by
  have head : bytes "library ieee;\nuse ieee.std_logic_1164.all;\n\npackage " = bytes "library ieee;" ++
      byte '\n' :: (bytes "use ieee.std_logic_1164.all;" ++ byte '\n' :: byte '\n' :: bytes "package ") := rfl
  have type : bytes " is\n\ntype rom_t is array (0 to " = bytes " is" ++ byte '\n' :: byte '\n' ::
      bytes "type rom_t is array (0 to " := rfl
  have size : bytes ") of std_ulogic_vector(31 downto 0);\nconstant image_size_c : natural := " =
      bytes ") of std_ulogic_vector(31 downto 0);" ++ byte '\n' ::
        bytes "constant image_size_c : natural := " := rfl
  have data : bytes ";\nconstant image_data_c : rom_t := (\n" = bytes ";" ++ byte '\n' ::
      (bytes "constant image_data_c : rom_t := (" ++ [byte '\n']) := rfl
  have others : bytes "others => (others => '0')\n);\n\nend " = bytes "others => (others => '0')" ++
      byte '\n' :: (bytes ");" ++ byte '\n' :: byte '\n' :: bytes "end ") := rfl
  have word : bytes "\",\n" = bytes "\"," ++ [byte '\n'] := rfl
  have foot : bytes ";\n" = bytes ";" ++ [byte '\n'] := rfl
  simp only [Operation.image, vhdLine, romLine, sizeLine, head, type, size, data, others, word, foot,
    List.append_assoc, List.cons_append, List.nil_append]

/-- The COE file, line by line: two header lines, and one line for each word. -/
theorem image_coe : Operation.coe.image outputFile baseAddr rawExeSize extExeSize rawImage =
    bytes "memory_initialization_radix=16;" ++ byte '\n' ::
      (bytes "memory_initialization_vector=" ++ byte '\n' ::
      ((imageWords rawExeSize rawImage).zipIdx.flatMap (fun item =>
        coeLine (imageWords rawExeSize rawImage).length item ++ [byte '\n']) ++ [])) := by
  have line (item : UInt32 × Nat) (count : Nat) :
      (if item.2 = count - 1 then hex08 item.1 ++ bytes ";\n" else hex08 item.1 ++ bytes ",\n") =
        coeLine count item ++ [byte '\n'] := by
    unfold coeLine
    split
    · rw [List.append_assoc]
      rfl
    · rw [List.append_assoc]
      rfl
  have head : bytes "memory_initialization_radix=16;\nmemory_initialization_vector=\n" =
      bytes "memory_initialization_radix=16;" ++ byte '\n' ::
        (bytes "memory_initialization_vector=" ++ [byte '\n']) := rfl
  simp only [Operation.image, line, head, List.append_assoc, List.cons_append, List.nil_append,
    List.append_nil]

/-- The MEM file, line by line: nothing but one line for each word. -/
theorem image_mem : Operation.mem.image outputFile baseAddr rawExeSize extExeSize rawImage =
    (imageWords rawExeSize rawImage).zipIdx.flatMap (fun item => memLine item ++ [byte '\n']) ++ [] := by
  have foot : bytes "\n" = [byte '\n'] := rfl
  simp only [Operation.image, memLine, foot, List.append_assoc, List.append_nil]

/-- The MIF file, line by line: its header, one line for each word, and its end. -/
theorem image_mif : Operation.mif.image outputFile baseAddr rawExeSize extExeSize rawImage =
    depthLine rawExeSize ++ byte '\n' :: (bytes "WIDTH = 32;" ++ byte '\n' ::
      (bytes "ADDRESS_RADIX = HEX;" ++ byte '\n' :: (bytes "DATA_RADIX = HEX;" ++ byte '\n' ::
      (bytes "CONTENT" ++ byte '\n' :: (bytes "BEGIN" ++ byte '\n' ::
      ((imageWords rawExeSize rawImage).zipIdx.flatMap (fun item => mifLine item ++ [byte '\n']) ++
      (bytes "END;" ++ byte '\n' :: []))))))) := by
  have head : bytes ";\nWIDTH = 32;\nADDRESS_RADIX = HEX;\nDATA_RADIX = HEX;\nCONTENT\nBEGIN\n" =
      bytes ";" ++ (byte '\n' :: (bytes "WIDTH = 32;" ++ byte '\n' :: (bytes "ADDRESS_RADIX = HEX;" ++
        byte '\n' :: (bytes "DATA_RADIX = HEX;" ++ byte '\n' :: (bytes "CONTENT" ++ byte '\n' ::
        (bytes "BEGIN" ++ [byte '\n'])))))) := rfl
  have line : bytes ";\n" = bytes ";" ++ [byte '\n'] := rfl
  have foot : bytes "END;\n" = bytes "END;" ++ [byte '\n'] := rfl
  simp only [Operation.image, mifLine, depthLine, head, line, foot, List.append_assoc, List.cons_append,
    List.nil_append]

/-! ## Images read -/

/-- Every reader gets the words of the image back, at their places. The header lines of a
text show no entry, and its data lines show one each. -/
theorem image_read (operation : Operation) (whole : rawImage.length = rawExeSize.toNat)
    (multiple : 4 ∣ rawExeSize.toNat) (named : operation = .vhd → byte '\n' ∉ outputFile) :
    operation.read (operation.image outputFile baseAddr rawExeSize extExeSize rawImage) =
      places (imageWords rawExeSize rawImage) := by
  have data := imageWords_bytes rawExeSize rawImage whole multiple
  have few : ∀ item ∈ (imageWords rawExeSize rawImage).zipIdx, item.2 < 2 ^ 32 := by
    rintro ⟨word, n⟩ member
    have inside := List.snd_lt_of_mem_zipIdx member
    rw [imageWords, List.length_map, List.length_range] at inside
    have size := rawExeSize.toNat_lt
    simp only at inside ⊢
    omega
  cases operation with
  | exe =>
    rw [Operation.read, Operation.image, exeFile_bytes]
    exact congrArg places (readWords_wordBytes _)
  | bin =>
    rw [Operation.read, Operation.image]
    conv_lhs => rw [← data]
    rw [readWords_wordBytes]
  | vhd =>
    have name := fun member => named rfl (pkgName_subset outputFile member)
    rw [Operation.read, image_vhd]
    have package : byte '\n' ∉ bytes "package " ++ (pkgName outputFile ++ bytes " is") := by
      simp only [List.mem_append, not_or]
      exact ⟨by decide, name, by decide⟩
    have last : byte '\n' ∉ bytes "end " ++ (pkgName outputFile ++ bytes ";") := by
      simp only [List.mem_append, not_or]
      exact ⟨by decide, name, by decide⟩
    rw [textEntries_skip (by decide) rfl, textEntries_skip (by decide) rfl,
      textEntries_skip (by decide) rfl, textEntries_skip package rfl, textEntries_skip (by decide) rfl,
      textEntries_skip (romLine_plain _) rfl, textEntries_skip (sizeLine_plain _) rfl,
      textEntries_skip (by decide) rfl,
      textEntries_data _ _ id (fun word _ => vhdLine_plain word) (fun word _ => vhdLine_shows word),
      textEntries_skip (by decide) rfl, textEntries_skip (by decide) rfl,
      textEntries_skip (by decide) rfl, textEntries_skip last rfl, textEntries_nil rfl,
      List.map_id, List.append_nil]
  | coe =>
    rw [Operation.read, image_coe, textEntries_skip (by decide) rfl, textEntries_skip (by decide) rfl,
      textEntries_data _ _ Prod.fst (fun item _ => coeLine_plain _ item) (fun item _ => coeLine_shows _ item),
      textEntries_nil rfl, List.append_nil, List.zipIdx_map_fst 0]
  | mem =>
    rw [Operation.read, image_mem,
      textEntries_data _ _ Prod.swap (fun item _ => memLine_plain item)
        (fun item member => memLine_shows item (few item member)), textEntries_nil rfl, List.append_nil]
    rfl
  | mif =>
    rw [Operation.read, image_mif, textEntries_skip (depthLine_plain _) (depthLine_none _),
      textEntries_skip (by decide) rfl, textEntries_skip (by decide) rfl,
      textEntries_skip (by decide) rfl, textEntries_skip (by decide) rfl,
      textEntries_skip (by decide) rfl,
      textEntries_data _ _ Prod.swap (fun item _ => mifLine_plain item)
        (fun item member => mifLine_shows item (few item member)),
      textEntries_skip (by decide) rfl, textEntries_nil rfl, List.append_nil]
    rfl

end

/-! ## What is written -/

/-- A file that holds these words as an image of the format: its reader finds them, the
header of an executable tells where they go, how many bytes they are and what they add up
to, and the texts that declare a size declare theirs. A VHDL text can be read only if its
name keeps to one line. -/
structure ImageOf (operation : Operation) (baseAddr : UInt32) (outputFile : List UInt8)
    (words : List UInt32) (rawExeSize extExeSize : UInt32) (file : List UInt8) : Prop where
  read : (operation = .vhd → byte '\n' ∉ outputFile) → operation.read file = places words
  header : operation = .exe →
    readWords (file.take 16) = [signatureC, baseAddr, rawExeSize, ~~~ words.sum]
  package : operation = .vhd → byte '\n' ∉ outputFile →
    romLine extExeSize ∈ file.splitOn (byte '\n') ∧ sizeLine rawExeSize ∈ file.splitOn (byte '\n')
  depth : operation = .mif → depthLine rawExeSize ∈ file.splitOn (byte '\n')

/-- Every image is an image of the words it was made from: its reader finds them, and
what its header says is true. -/
theorem image_of (operation : Operation) (outputFile : List UInt8)
    (baseAddr rawExeSize extExeSize : UInt32) (rawImage : List UInt8)
    (whole : rawImage.length = rawExeSize.toNat) (multiple : 4 ∣ rawExeSize.toNat) :
    ImageOf operation baseAddr outputFile (imageWords rawExeSize rawImage) rawExeSize extExeSize
      (operation.image outputFile baseAddr rawExeSize extExeSize rawImage) := by
  refine ⟨image_read _ _ _ _ _ operation whole multiple, ?_, ?_, ?_⟩
  · rintro rfl
    rw [Operation.image, exeFile_bytes, List.take_left' (by simp [wordBytes]), readWords_wordBytes]
  · rintro rfl named
    have name := fun member => named (pkgName_subset outputFile member)
    have package : byte '\n' ∉ bytes "package " ++ (pkgName outputFile ++ bytes " is") := by
      simp only [List.mem_append, not_or]
      exact ⟨by decide, name, by decide⟩
    rw [image_vhd, splitOn_line (by decide), splitOn_line (by decide), splitOn_line (by decide),
      splitOn_line package, splitOn_line (by decide), splitOn_line (romLine_plain _),
      splitOn_line (sizeLine_plain _)]
    constructor
    · simp
    · simp
  · rintro rfl
    rw [image_mif, splitOn_line (depthLine_plain _)]
    exact List.mem_cons_self

/-- Exactly when the tool writes an image, and what of. The file is refused if it is empty,
if it has no base address to go to, or if the host does not serve the tool; of one whose
size takes more than 32 bits only the beginning is seen; and what is then larger than 2 GiB
is never written. What is written holds the words of the padded binary, and declares the
least power of two that has room for it. -/
theorem imageGen_returns (host : Host) (operation : Operation) (baseAddr : UInt32)
    (outputFile flat : List UInt8) :
    ((∃ steps file, imageGen host steps operation baseAddr outputFile flat = .ok (0, some file)) ↔
      ¬(operation = .exe ∧ baseAddr = 0xFFFFFFFF) ∧ flat ≠ [] ∧ flat.length % 2 ^ 32 ≤ 2 ^ 31 ∧
        host.Serves flat) ∧
    ∀ steps file, imageGen host steps operation baseAddr outputFile flat = .ok (0, some file) →
      ∃ (words : List UInt32) (extExeSize : UInt32),
        words.flatMap wordBytes = padded (seenPart flat) ∧
        IsLeast (RomSizes 2 (paddedLength (seenPart flat))) extExeSize.toNat ∧
        ImageOf operation baseAddr outputFile words (UInt32.ofNat (paddedLength (seenPart flat)))
          extExeSize file := by
  constructor
  · constructor
    · rintro ⟨steps, file, returned⟩
      exact imageGen_written returned
    · rintro ⟨some_base, nonempty, fits, serves⟩
      obtain ⟨extExeSize, written⟩ :=
        imageGen_writes (Nat.le_refl 30) some_base nonempty fits serves
      exact ⟨30, _, written⟩
  · intro steps file returned
    obtain ⟨some_base, nonempty, fits, serves⟩ := imageGen_written returned
    obtain ⟨-, value⟩ := aligned_seen flat fits
    have multiple := paddedLength_multiple (seenPart flat)
    have small : paddedLength (seenPart flat) ≤ 2 ^ 31 := by
      rw [paddedLength, seenPart_length]
      omega
    have whole := padded_length (seenPart flat)
    rw [imageGen_seen some_base nonempty fits serves] at returned
    cases reached : extend (UInt32.ofNat (paddedLength (seenPart flat))) steps 4 with
    | none => simp [reached] at returned
    | some extExeSize =>
      simp only [reached, Except.ok.injEq, Prod.mk.injEq, Option.some.injEq, true_and] at returned
      have least := extend_least (by rw [value]; exact small) steps 2 4 rfl reached
      rw [value] at least
      rw [← value] at whole multiple
      refine ⟨_, extExeSize, imageWords_bytes _ _ whole multiple, least, ?_⟩
      rw [← returned]
      exact image_of operation outputFile baseAddr _ extExeSize _ whole multiple

end NeoSfp
