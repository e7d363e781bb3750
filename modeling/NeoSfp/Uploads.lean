import NeoSfp.AppImages

/-!
# Uploads

An executable is uploaded through UART0. The bootloader takes exactly the executables
whose words are all there and whose checksum is right, takes no byte more, and puts in
the memory what the image generator has been given.
-/

namespace NeoSfp

open Checked

section

variable {σ : Type}

/-! ## The stream of UART0 -/

/-- A character in front of the input is received, and nothing else changes. -/
theorem uartGetc_apply {s : Boot σ} {c : UInt8} {input : List UInt8} (received : s.streams.input = c :: input) :
    uartGetc s = .ok c { s with streams := { s.streams with input := input } } := by
  simp only [uartGetc, Run.bind_apply, Run.get_apply, Run.andThen_ok, received, Run.modify_apply,
    Run.pure_apply]

/-- On an empty input the bootloader waits for a character. -/
theorem uartGetc_waits {s : Boot σ} (drained : s.streams.input = []) : uartGetc s = .err s := by
  simp only [uartGetc, Run.bind_apply, Run.get_apply, Run.andThen_ok, drained, Run.reject_apply, id]

/-- A word is received as its four bytes, least significant first. -/
theorem uartStreamGet_word {s : Boot σ} {word : UInt32} {input : List UInt8}
    (received : s.streams.input = wordBytes word ++ input) :
    uartStreamGet s = .ok (0, word) { s with streams := { s.streams with input := input } } := by
  have read : read32 (wordBytes word) = word := by
    have alone := read32_wordBytes word []
    rwa [List.append_nil] at alone
  simp only [wordBytes, List.cons_append, List.nil_append] at received read
  simp only [uartStreamGet, Run.bind_apply, uartGetc_apply received, Run.andThen_ok, Run.pure_apply,
    uartGetc_apply (s := { s with streams := { s.streams with input := _ :: _ } }) rfl, read]

/-- Four bytes have been received if a word is returned, and they are those of the
word. -/
theorem uartStreamGet_ok {s s' : Boot σ} {status : Int} {word : UInt32}
    (returned : uartStreamGet s = .ok (status, word) s') :
    status = 0 ∧ s.streams.input = wordBytes word ++ s'.streams.input ∧
      s' = { s with streams := { s.streams with input := s'.streams.input } } := by
  rcases received : s.streams.input with _ | ⟨a, _ | ⟨b, _ | ⟨c, _ | ⟨d, input⟩⟩⟩⟩
  case cons.cons.cons.cons =>
    have whole : s.streams.input = wordBytes (read32 [a, b, c, d]) ++ input := by
      rw [wordBytes_read32 [a, b, c, d] (Nat.le_refl 4), received]
      rfl
    rw [uartStreamGet_word whole] at returned
    obtain ⟨pair, rfl⟩ := Outcome.ok.inj returned
    obtain ⟨rfl, rfl⟩ := Prod.mk.inj pair
    exact ⟨rfl, by rw [← received, whole], rfl⟩
  all_goals
    simp [uartStreamGet, uartGetc, received] at returned

/-- Receiving a word touches nothing but the streams. -/
theorem uart_framed : Framed (uartStreamGet : Loader σ (Int × UInt32)) := by
  have getc : Framed (uartGetc : Loader σ UInt8) := by
    intro s c s' returned
    cases received : s.streams.input with
    | nil =>
      rw [uartGetc_waits received] at returned
      cases returned
    | cons c' input =>
      rw [uartGetc_apply received, Outcome.ok.injEq] at returned
      obtain ⟨rfl, rfl⟩ := returned
      refine ⟨_, rfl, ?_⟩
      intro u same
      rw [uartGetc_apply (same ▸ received), same]
  exact framed_bind getc fun _ => framed_bind getc fun _ => framed_bind getc fun _ => framed_bind getc fun _ =>
    framed_pure _

/-- Receiving a word always reports success: it waits for the bytes instead of giving
up. -/
theorem uart_certain (s : Boot σ) (result : Int × UInt32) (s' : Boot σ)
    (returned : uartStreamGet s = .ok result s') : result.1 = 0 := (uartStreamGet_ok returned).1

/-- An input that begins with the bytes of some words yields these words. By induction
on them. -/
theorem uart_yields (words : List UInt32) (rest : List UInt8) (d : Streams σ)
    (received : d.input = words.flatMap wordBytes ++ rest) :
    Yields uartStreamGet d words { d with input := rest } := by
  induction words generalizing d with
  | nil =>
    have same : d = { d with input := rest } := by rw [← received.trans (List.nil_append rest)]
    rw [← same]
    exact Yields.nil d
  | cons word words ih =>
    rw [List.flatMap_cons, List.append_assoc] at received
    have later := ih { d with input := words.flatMap wordBytes ++ rest } rfl
    refine Yields.cons ?_ later
    rintro s rfl
    exact uartStreamGet_word received

/-- The words returned have been received, byte for byte. By induction on the words. -/
theorem yields_uart {words : List UInt32} {d d' : Streams σ} (yields : Yields uartStreamGet d words d') :
    d.input = words.flatMap wordBytes ++ d'.input ∧ d' = { d with input := d'.input } := by
  induction yields with
  | nil d => exact ⟨rfl, rfl⟩
  | @cons d d₁ d' word words next _ ih =>
    obtain ⟨-, received, same⟩ := uartStreamGet_ok
      (next { region := fun _ => .nothing, memory := fun _ => 0, streams := d } rfl)
    have place : d₁.flashAddr = d.flashAddr := congrArg (fun s => s.streams.flashAddr) same
    have flash : d₁.spi = d.spi := congrArg (fun s => s.streams.spi) same
    obtain ⟨later, same'⟩ := ih
    rw [List.flatMap_cons, List.append_assoc, ← later]
    refine ⟨received, ?_⟩
    rw [same', place, flash]

/-! ## Uploads -/

/-- The bootloader that has taken an executable, with what has been sent behind it. -/
def Boot.upload (image : AppImage) (rest : List UInt8) (s : Boot σ) : Boot σ :=
  s.taken image { s.streams with input := rest }

/-- An executable that has been sent whole, for a place that is free memory, is taken. -/
theorem upload_taken (image : AppImage) (rest : List UInt8) (rounds : Nat) (s : Boot σ)
    (sent : s.streams.input = image.encode ++ rest) (free : FreeWords s.region image.base image.words.length)
    (enough : s.streams.input.length < rounds) :
    systemAppLoad rounds uartSetup uartStreamGet s = .ok 0 (s.upload image rest) := by
  have length : image.words.length < rounds := by
    have bytes_length := wordBytes_length image.transfer
    rw [sent, List.length_append, AppImage.encode, bytes_length, AppImage.transfer, List.length_append] at enough
    omega
  have ready : uartSetup { s with exeSize := 0 } = .ok 0 { s with exeSize := 0 } := rfl
  exact load_taken image ready (uart_yields image.transfer rest s.streams sent) free length

end

/-- What is accepted is well formed. An upload succeeds exactly if an executable with its
signature, all of its words and their checksum has been sent, and its place is memory that
the bootloader does not need itself; then it is in the memory, and what has been sent
behind it is still to be received. -/
theorem systemAppLoad_accepts {σ : Type} (rounds : Nat) (s s' : Boot σ)
    (enough : s.streams.input.length < rounds) :
    systemAppLoad rounds uartSetup uartStreamGet s = .ok 0 s' ↔
      ∃ (image : AppImage) (rest : List UInt8), s.streams.input = image.encode ++ rest ∧
        FreeWords s.region image.base image.words.length ∧ s' = s.upload image rest := by
  constructor
  · intro loaded
    have initialized : Framed (uartSetup : Loader σ Int) := framed_pure 0
    obtain ⟨image, d, d', ready, yields, free, rfl⟩ :=
      systemAppLoad_ok initialized uart_framed uart_certain loaded
    cases ready
    obtain ⟨received, same⟩ := yields_uart yields
    refine ⟨image, d'.input, received, free, ?_⟩
    rw [Boot.upload, ← same]
  · rintro ⟨image, rest, sent, free, rfl⟩
    exact upload_taken image rest rounds s sent free enough

/-- A small system: 128 KiB of instruction memory, a data memory of 8 KiB with the
bootloader's 256 bytes at its start, the boot ROM, and devices at the top. -/
def smallSystem (addr : UInt32) : Region :=
  if addr < 0x20000 then .ram
  else if addr < 0x80000000 then .nothing
  else if addr < 0x80000100 then .own
  else if addr < 0x80002000 then .ram
  else if addr < 0xFFE00000 then .nothing
  else if addr < 0xFFE04000 then .rom
  else if addr < 0xFFE10000 then .nothing
  else .device

/-- The words of its instruction memory are free, since the bootloader needs only its
own part of the data memory. -/
theorem smallSystem_free (base : UInt32) (count : Nat) (fits : base.toNat + 4 * count ≤ 0x20000) :
    FreeWords smallSystem base count := by
  intro k inside
  have low : base + UInt32.ofNat (4 * k) < 0x20000 := by
    have bound : (0x20000 : UInt32).toNat = 0x20000 := rfl
    rw [UInt32.lt_iff_toNat_lt, UInt32.toNat_add, UInt32.toNat_ofNat', bound]
    omega
  rw [smallSystem, if_pos low]

/-- A bootloader that has loaded something else before. -/
def usedBoot : Boot PUnit where
  exeBase := 0x80
  exeSize := 4
  region := smallSystem
  memory := fun a => a.toUInt8
  streams := { spi := { dev := ⟨⟩ } }

/-- Two words. -/
def smallImage : AppImage where
  base := 0
  size := 7
  words := [0x13, 0x6f]
  counted := rfl
  reached := by decide
  aligned _ := rfl

/-- An image of two words, sent to a bootloader that has loaded something else
before. -/
theorem systemAppLoad_accepts_usedBoot :
    systemAppLoad 30 uartSetup uartStreamGet
        { usedBoot with streams := { usedBoot.streams with input := smallImage.encode ++ [0x65] } } =
      .ok 0 (usedBoot.upload smallImage [0x65]) ↔
    ∃ (image : AppImage) (rest : List UInt8), smallImage.encode ++ [0x65] = image.encode ++ rest ∧
      FreeWords smallSystem image.base image.words.length ∧ usedBoot.upload smallImage [0x65] = Boot.upload image rest
        { usedBoot with streams := { usedBoot.streams with input := smallImage.encode ++ [0x65] } } :=
  systemAppLoad_accepts 30 _ _ (by decide)

/-! ## From the generator to the memory -/

/-- The padding adds zeros, which is what a read behind the end of the binary gives. -/
theorem padded_getD (flat : List UInt8) (k : Nat) : (padded flat).getD k 0 = flat.getD k 0 := by
  by_cases inside : k < flat.length
  · exact List.getD_append _ _ _ _ inside
  · rw [padded, List.getD_append_right _ _ _ _ (by omega), List.getD_eq_default flat 0 (by omega)]
    simp

/-- The padded size fits 32 bits for a binary of at most 2 GiB. -/
theorem padded_size (flat : List UInt8) (fits : flat.length ≤ 2 ^ 31) :
    (UInt32.ofNat (paddedLength flat)).toNat = paddedLength flat := by
  rw [UInt32.toNat_ofNat', Nat.mod_eq_of_lt]
  unfold paddedLength
  omega

/-- The words of the padded binary are as many as the loader counts from its size. -/
theorem imageWords_counted (flat : List UInt8) (fits : flat.length ≤ 2 ^ 31) :
    (imageWords (UInt32.ofNat (paddedLength flat)) (padded flat)).length =
      ((UInt32.ofNat (paddedLength flat)).toNat + 3) / 4 := by
  have multiple := paddedLength_multiple flat
  rw [imageWords, List.length_map, List.length_range, padded_size flat fits]
  omega

/-- The padded size is far enough from the end of 32 bits for the loader's positions. -/
theorem padded_reached (flat : List UInt8) (fits : flat.length ≤ 2 ^ 31) :
    (UInt32.ofNat (paddedLength flat)).toNat ≤ 2 ^ 32 - 4 := by
  rw [padded_size flat fits, paddedLength]
  omega

/-- The executable of a binary. -/
def exeImage (baseAddr : UInt32) (flat : List UInt8) (aligned : baseAddr.toNat % 4 = 0)
    (fits : flat.length ≤ 2 ^ 31) : AppImage where
  base := baseAddr
  size := UInt32.ofNat (paddedLength flat)
  words := imageWords (UInt32.ofNat (paddedLength flat)) (padded flat)
  counted := imageWords_counted flat fits
  reached := padded_reached flat fits
  aligned _ := aligned

/-- The file that the tool writes is the transfer of the executable: header and words,
in the same order and with the same checksum. -/
theorem exeImage_encode (baseAddr : UInt32) (flat : List UInt8) (aligned : baseAddr.toNat % 4 = 0)
    (fits : flat.length ≤ 2 ^ 31) :
    exeFile baseAddr (UInt32.ofNat (paddedLength flat))
        (imageWords (UInt32.ofNat (paddedLength flat)) (padded flat)) =
      (exeImage baseAddr flat aligned fits).encode := by
  rw [exeFile_bytes, AppImage.encode, AppImage.transfer, List.flatMap_append]
  rfl

/-- The data of the executable is the padded binary. -/
theorem exeImage_data (baseAddr : UInt32) (flat : List UInt8) (aligned : baseAddr.toNat % 4 = 0)
    (fits : flat.length ≤ 2 ^ 31) : (exeImage baseAddr flat aligned fits).data = padded flat := by
  apply imageWords_bytes
  · rw [padded_length, padded_size flat fits]
  · rw [padded_size flat fits]
    exact paddedLength_multiple flat

/-- The image generator and the bootloader fit together. The executable that the tool
makes of a binary on a host that serves it is taken where it lies in free memory, and then
the memory has the binary at its base and zeros up to the next word, and is otherwise
unchanged. -/
theorem imageGen_uploads {σ : Type} (host : Host) (steps rounds : Nat) (baseAddr : UInt32)
    (outputFile flat rest : List UInt8) (s : Boot σ) (doublings : 30 ≤ steps) (nonempty : flat ≠ [])
    (fits : flat.length ≤ 2 ^ 31) (serves : host.Serves flat) (aligned : baseAddr.toNat % 4 = 0)
    (free : FreeWords s.region baseAddr (paddedLength flat / 4))
    (enough : flat.length + rest.length + 20 ≤ rounds) :
    ∃ file s', imageGen host steps .exe baseAddr outputFile flat = .ok (0, some file) ∧
      systemAppLoad rounds uartSetup uartStreamGet
        { s with streams := { s.streams with input := file ++ rest } } = .ok 0 s' ∧
      s'.exeBase = baseAddr ∧ s'.exeSize.toNat = paddedLength flat ∧ s'.streams.input = rest ∧
      ∀ a, s'.memory a =
        if (a - baseAddr).toNat < paddedLength flat then flat.getD (a - baseAddr).toNat 0
        else s.memory a := by
  have some_base : ¬(Operation.exe = .exe ∧ baseAddr = 0xFFFFFFFF) := by
    rintro ⟨-, rfl⟩
    exact absurd aligned (by decide)
  have whole : seenPart flat = flat := seenPart_small flat (by omega)
  obtain ⟨extExeSize, written⟩ : ∃ extExeSize, imageGen host steps .exe baseAddr outputFile flat = _ :=
    imageGen_writes doublings some_base nonempty (by omega) serves
  rw [whole, Operation.image, exeImage_encode baseAddr flat aligned fits] at written
  have length : (exeImage baseAddr flat aligned fits).encode.length = 16 + paddedLength flat := by
    rw [← padded_length, ← exeImage_data baseAddr flat aligned fits, AppImage.encode, AppImage.transfer,
      List.flatMap_append, List.length_append, wordBytes_length]
    rfl
  have words : (exeImage baseAddr flat aligned fits).words.length = paddedLength flat / 4 := by
    have multiple := paddedLength_multiple flat
    rw [exeImage, imageWords_counted flat fits, padded_size flat fits]
    omega
  refine ⟨_, _, written, upload_taken _ rest rounds _ rfl ?_ ?_, rfl, padded_size flat fits, rfl, ?_⟩
  · rw [words]
    exact free
  · rw [List.length_append, length, paddedLength]
    omega
  · intro a
    change s.memory.place baseAddr (exeImage baseAddr flat aligned fits).data a = _
    rw [exeImage_data, MainMemory.place, padded_length, padded_getD]

/-- A host on which nothing fails, with a `long` of 64 bits. -/
def plainHost : Host where
  opensInput := true
  opensOutput := true
  longMax := 2 ^ 63 - 1
  calloc _ := true
  fread size := size

/-- A binary of five bytes, made into an executable and sent to a bootloader that has
loaded something else before. -/
theorem imageGen_uploads_usedBoot :
    ∃ file s', imageGen plainHost 32 .exe 0x100 (bytes "neo_exe.bin") [1, 2, 3, 4, 5] = .ok (0, some file) ∧
      systemAppLoad 30 uartSetup uartStreamGet
        { usedBoot with streams := { usedBoot.streams with input := file ++ [0x65] } } = .ok 0 s' ∧
      s'.exeBase = 0x100 ∧ s'.exeSize.toNat = paddedLength [1, 2, 3, 4, 5] ∧ s'.streams.input = [0x65] ∧
      ∀ a, s'.memory a =
        if (a - 0x100).toNat < paddedLength [1, 2, 3, 4, 5] then
          [1, 2, 3, 4, 5].getD (a - 0x100).toNat 0
        else usedBoot.memory a :=
  imageGen_uploads plainHost 32 30 0x100 (bytes "neo_exe.bin") [1, 2, 3, 4, 5] [0x65] usedBoot (by decide)
    (by decide) (by decide) ⟨rfl, rfl, by decide, rfl, Nat.le_refl _⟩ (by decide)
    (smallSystem_free 0x100 2 (by decide)) (by decide)

/-! ## Damage -/

/-- A changed word leaves the sum as it was only if it has not changed. The other words
cancel out. -/
theorem sum_set (words : List UInt32) (i : Nat) (word : UInt32) (inside : i < words.length) :
    (words.set i word).sum = words.sum ↔ word = words[i] := by
  induction words generalizing i with
  | nil => exact absurd inside (Nat.not_lt_zero i)
  | cons first words ih =>
    cases i with
    | zero =>
      rw [List.set_cons_zero, List.sum_cons, List.sum_cons, UInt32.add_left_inj, List.getElem_cons_zero]
    | succ i =>
      rw [List.set_cons_succ, List.sum_cons, List.sum_cons, UInt32.add_right_inj,
        ih i (Nat.lt_of_succ_lt_succ inside), List.getElem_cons_succ]

/-- The checksum. An executable whose data words arrive changed is refused exactly if
their sum has changed, and so whenever a single word has; a refused one is not kept for
booting. The words change the memory either way, so its place has to be free memory. -/
theorem systemAppLoad_damaged {σ : Type} (image : AppImage) (received : List UInt32) (rest : List UInt8)
    (rounds : Nat) (s : Boot σ) (whole : received.length = image.words.length)
    (free : FreeWords s.region image.base image.words.length) (enough : image.words.length < rounds)
    (sent : s.streams.input = (image.header ++ received).flatMap wordBytes ++ rest) :
    ∃ status s', systemAppLoad rounds uartSetup uartStreamGet s = .ok status s' ∧
      (status = 0 ↔ received.sum = image.words.sum) ∧ (status ≠ 0 → s'.exeSize = 0) ∧
      ∀ i word, (inside : i < image.words.length) → received = image.words.set i word →
        (status = 0 ↔ word = image.words[i]) := by
  have ready : uartSetup { s with exeSize := 0 } = .ok 0 { s with exeSize := 0 } := rfl
  have yields := uart_yields ([binSignature, image.base, image.size, ~~~ image.words.sum] ++ received) rest
    s.streams sent
  have some_words : received ≠ [] → image.words ≠ [] := by
    intro some none
    rw [none, List.length_nil] at whole
    exact some (List.length_eq_zero_iff.mp whole)
  have loaded := systemAppLoad_yields ready yields (whole.trans image.counted) image.reached
    (fun some => image.aligned (some_words some)) (whole.symm ▸ free) (whole ▸ enough)
  have single (i : Nat) (word : UInt32) (inside : i < image.words.length)
      (changed : received = image.words.set i word) :
      received.sum = image.words.sum ↔ word = image.words[i] := by
    rw [changed, sum_set image.words i word inside]
  rw [loaded]
  by_cases intact : received.sum = image.words.sum
  · rw [if_pos (by rw [intact])]
    refine ⟨_, _, rfl, iff_of_true rfl intact, fun refused => absurd rfl refused, ?_⟩
    intro i word inside changed
    exact iff_of_true rfl ((single i word inside changed).mp intact)
  · have refused : ¬ ~~~ image.words.sum = ~~~ received.sum := fun same =>
      intact (UInt32.not_inj.mp same).symm
    rw [if_neg refused]
    refine ⟨_, _, rfl, iff_of_false (by decide) intact, fun _ => rfl, ?_⟩
    intro i word inside changed
    exact iff_of_false (by decide) fun same => intact ((single i word inside changed).mpr same)

/-- The first word has arrived with a bit more, and the executable is refused. -/
theorem systemAppLoad_damaged_smallImage :
    ∃ status s', systemAppLoad 3 uartSetup uartStreamGet
        { usedBoot with streams := { usedBoot.streams with
            input := (smallImage.header ++ [0x33, 0x6f]).flatMap wordBytes ++ [] } } = .ok status s' ∧
      (status = 0 ↔ [0x33, 0x6f].sum = smallImage.words.sum) ∧ (status ≠ 0 → s'.exeSize = 0) ∧
      ∀ i word, (inside : i < smallImage.words.length) → [0x33, 0x6f] = smallImage.words.set i word →
        (status = 0 ↔ word = smallImage.words[i]) :=
  systemAppLoad_damaged smallImage [0x33, 0x6f] [] 3 _ rfl (smallSystem_free 0 2 (by decide)) (by decide) rfl

end NeoSfp
