import NeoSfp.Bootloader

/-!
# Executable images

An executable travels as a header of four words and its data words, on any stream. The
checksum in the header is the complement of the sum of the data words, so that the sum
with it is all ones.
-/

namespace NeoSfp

open Checked

/-- An executable that can be transferred. The last word may be needed in part only, and
the position in front of the end is a multiple of four. -/
structure AppImage where
  base : UInt32
  size : UInt32
  words : List UInt32
  counted : words.length = (size.toNat + 3) / 4
  reached : size.toNat ≤ 2 ^ 32 - 4
  aligned : words ≠ [] → base.toNat % 4 = 0

namespace AppImage

variable (image : AppImage)

def header : List UInt32 := [binSignature, image.base, image.size, ~~~ image.words.sum]

/-- The words on a stream. -/
def transfer : List UInt32 := image.header ++ image.words

/-- The file. -/
def encode : List UInt8 := image.transfer.flatMap wordBytes

def data : List UInt8 := image.words.flatMap wordBytes

end AppImage

/-- Words take four bytes each in memory. -/
theorem wordBytes_length (words : List UInt32) :
    (words.flatMap wordBytes).length = 4 * words.length := by
  induction words with
  | nil => rfl
  | cons word words ih =>
    rw [List.flatMap_cons, List.length_append, ih, List.length_cons, wordBytes]
    simp only [List.length_cons, List.length_nil]
    omega

/-! ## Memory -/

/-- Placing nothing leaves the memory as it is. -/
theorem place_nil (addr : UInt32) (m : MainMemory) : m.place addr [] = m := by
  funext a
  simp [MainMemory.place]

/-- Behind what has been placed more can be placed, up to the size of the memory. -/
theorem place_append (addr : UInt32) (first second : List UInt8) (m : MainMemory)
    (fits : first.length + second.length ≤ 2 ^ 32) :
    (m.place addr first).place (addr + UInt32.ofNat first.length) second =
      m.place addr (first ++ second) := by
  funext a
  have from_addr : (a - addr).toNat = (2 ^ 32 - addr.toNat + a.toNat) % 2 ^ 32 := UInt32.toNat_sub a addr
  have from_end : (a - (addr + UInt32.ofNat first.length)).toNat =
      (2 ^ 32 - (addr.toNat + first.length % 2 ^ 32) % 2 ^ 32 + a.toNat) % 2 ^ 32 := by
    rw [UInt32.toNat_sub, UInt32.toNat_add, UInt32.toNat_ofNat']
  have low := addr.toNat_lt
  have high := a.toNat_lt
  simp only [MainMemory.place, List.length_append]
  by_cases inside : (a - addr).toNat < first.length
  · rw [if_neg (by omega), if_pos inside, if_pos (by omega), List.getD_append _ _ _ _ inside]
  · rw [if_neg inside]
    by_cases behind : (a - addr).toNat < first.length + second.length
    · have moved : (a - (addr + UInt32.ofNat first.length)).toNat = (a - addr).toNat - first.length := by
        omega
      rw [if_pos behind, if_pos (by omega), moved, List.getD_append_right _ _ _ _ (by omega)]
    · rw [if_neg behind, if_neg (by omega)]

/-- A position in front of 2 to the 32 is found again as the distance from its base,
also where the address wraps around. -/
theorem distance_behind (base : UInt32) (k : Nat) (small : k < 2 ^ 32) :
    (base + UInt32.ofNat k - base).toNat = k := by
  rw [UInt32.add_comm, UInt32.add_sub_cancel, UInt32.toNat_ofNat', Nat.mod_eq_of_lt small]

/-- Data that has been placed is read back at its addresses, as long as it is not longer
than the whole memory. -/
theorem place_at (base : UInt32) (data : List UInt8) (m : MainMemory) (k : Nat) (inside : k < data.length)
    (fits : data.length ≤ 2 ^ 32) : m.place base data (base + UInt32.ofNat k) = data.getD k 0 := by
  rw [MainMemory.place, distance_behind base k (by omega), if_pos inside]

/-! ## Free words -/

/-- These words of the address space lie in memory that the bootloader does not need
itself. -/
def FreeWords (region : UInt32 → Region) (base : UInt32) (count : Nat) : Prop :=
  ∀ k < count, region (base + UInt32.ofNat (4 * k)) = .ram

/-- No words need no memory. -/
theorem freeWords_nil (region : UInt32 → Region) (base : UInt32) : FreeWords region base 0 :=
  fun k inside => absurd inside (Nat.not_lt_zero k)

/-- The address of the word behind the first so many, in the two ways in which a loop
reaches it. -/
theorem free_behind (base : UInt32) (k : Nat) :
    base + 4 + UInt32.ofNat (4 * k) = base + UInt32.ofNat (4 * (k + 1)) := by
  rw [Nat.mul_succ, UInt32.ofNat_add, UInt32.add_comm (UInt32.ofNat (4 * k)), ← UInt32.add_assoc]
  rfl

/-- Words are free exactly if the first one is and those behind it are; so a loop over the
words can ask for one after another. -/
theorem freeWords_succ (region : UInt32 → Region) (base : UInt32) (count : Nat) :
    FreeWords region base (count + 1) ↔ region base = .ram ∧ FreeWords region (base + 4) count := by
  have first : base + UInt32.ofNat (4 * 0) = base := UInt32.add_zero base
  constructor
  · intro free
    refine ⟨first ▸ free 0 (Nat.succ_pos count), fun k inside => ?_⟩
    rw [free_behind]
    exact free (k + 1) (Nat.succ_lt_succ inside)
  · rintro ⟨here, behind⟩ k inside
    cases k with
    | zero => rw [first, here]
    | succ k =>
      rw [← free_behind]
      exact behind k (Nat.lt_of_succ_lt_succ inside)

/-! ## Streams -/

/-- On these streams the device returns the words one after another, and touches nothing
else. -/
inductive Yields {σ : Type} (streamGet : Loader σ (Int × UInt32)) :
    Streams σ → List UInt32 → Streams σ → Prop where
  | nil (d : Streams σ) : Yields streamGet d [] d
  | cons {d d' d'' : Streams σ} {word : UInt32} {words : List UInt32}
      (next : ∀ s, s.streams = d → streamGet s = .ok (0, word) { s with streams := d' })
      (rest : Yields streamGet d' words d'') : Yields streamGet d (word :: words) d''

section

variable {σ : Type} {streamGet : Loader σ (Int × UInt32)} {d d' d'' : Streams σ}

/-- A stream that yields several words yields the first one now, and the others behind
it. -/
theorem yields_cons {word : UInt32} {words : List UInt32} (yields : Yields streamGet d (word :: words) d'') :
    ∃ d', (∀ s, s.streams = d → streamGet s = .ok (0, word) { s with streams := d' }) ∧
      Yields streamGet d' words d'' := by
  cases yields with
  | cons next rest => exact ⟨_, next, rest⟩

/-! ## Console -/

/-- Text as it is sent. -/
def crlf (text : List UInt8) : List UInt8 :=
  text.flatMap fun c => if c = byte '\n' then [byte '\r', c] else [c]

/-- A text sent to the console is the output it adds, with a CR in front of each
newline, and nothing else changes. -/
@[simp] theorem uartPuts_apply (text : List UInt8) (s : Boot σ) :
    uartPuts text s = .ok ⟨⟩ { s with output := s.output ++ crlf text } := by
  induction text generalizing s with
  | nil => simp [uartPuts, crlf]
  | cons c text ih =>
    simp only [uartPuts, uartPutc, Run.bind_apply, Run.modify_apply, Run.andThen_ok, ih, crlf,
      List.flatMap_cons, List.append_assoc]

/-- A number as it is printed. -/
def puth (num : UInt32) : List UInt8 :=
  byte '0' :: byte 'x' :: (List.range 8).map fun k =>
    (bytes "0123456789ABCDEF").getD (num.toNat / 16 ^ (7 - k) % 16) 0

/-- A number sent to the console is its eight hex digits behind `0x`, and nothing else
changes. -/
@[simp] theorem uartPuth_apply (num : UInt32) (s : Boot σ) :
    uartPuth num s = .ok ⟨⟩ { s with output := s.output ++ crlf (puth num) } :=
  uartPuts_apply (puth num) s

/-! ## Transfers -/

/-- An aligned word of free memory is stored, and nothing else changes. Both conditions
are needed: elsewhere the access faults or reaches the bootloader itself. -/
theorem store_apply (addr wdata : UInt32) (s : Boot σ) (aligned : addr.toNat % 4 = 0)
    (free : s.region addr = .ram) :
    storeUnsignedWord addr wdata s =
      .ok ⟨⟩ { s with memory := s.memory.place addr (wordBytes wdata) } := by
  have word : addr % 4 = 0 := by
    rw [← UInt32.toNat_inj, UInt32.toNat_mod]
    exact aligned
  simp only [storeUnsignedWord, Run.bind_apply, Run.get_apply, Run.andThen_ok, if_pos word, free,
    Run.modify_apply]

/-- The position behind a word does not wrap in front of the end, which is a multiple of
four. -/
theorem next_position {i size : UInt32} (reached : size.toNat ≤ 2 ^ 32 - 4) (multiple : i.toNat % 4 = 0)
    (inside : i < size) : (i + 4).toNat = i.toNat + 4 := by
  have less := UInt32.lt_iff_toNat_lt.mp inside
  have four : (4 : UInt32).toNat = 4 := rfl
  rw [UInt32.toNat_add, four, Nat.mod_eq_of_lt (by omega)]

/-- The words left are put in the memory. The induction is on them: each takes one
round, in which it is received, stored and added to the sum. -/
theorem transferLoop_yields {words : List UInt32} {base size i : UInt32} {rounds : Nat}
    {s : Boot σ} (checksum : UInt32) (yields : Yields streamGet s.streams words d')
    (counted : words.length = (size.toNat - i.toNat + 3) / 4) (reached : size.toNat ≤ 2 ^ 32 - 4)
    (multiple : i.toNat % 4 = 0) (aligned : words ≠ [] → base.toNat % 4 = 0)
    (free : FreeWords s.region (base + i) words.length) (enough : words.length < rounds) :
    transferLoop streamGet base size rounds i false checksum s = .ok (false, checksum + words.sum)
      { s with
        memory := s.memory.place (base + i) (words.flatMap wordBytes)
        streams := d' } := by
  obtain ⟨rounds, rfl⟩ := Nat.exists_eq_add_one_of_ne_zero (show rounds ≠ 0 by omega)
  induction words generalizing i checksum rounds s with
  | nil =>
    have done : ¬ i < size := by
      rw [UInt32.lt_iff_toNat_lt]
      simp only [List.length_nil] at counted
      omega
    cases yields
    rw [transferLoop, if_neg done]
    simp [place_nil]
  | cons word words ih =>
    simp only [List.length_cons] at counted enough
    rw [List.length_cons, freeWords_succ] at free
    obtain ⟨here, free⟩ := free
    have inside : i < size := by
      rw [UInt32.lt_iff_toNat_lt]
      omega
    have less := UInt32.lt_iff_toNat_lt.mp inside
    have base_aligned := aligned (by simp)
    have next := next_position reached multiple inside
    have place : (base + i).toNat % 4 = 0 := by
      rw [UInt32.toNat_add]
      omega
    obtain ⟨d, got, rest⟩ := yields_cons yields
    obtain ⟨rounds, rfl⟩ := Nat.exists_eq_add_one_of_ne_zero (show rounds ≠ 0 by omega)
    have stored := store_apply (base + i) word { s with streams := d } place here
    rw [transferLoop, if_pos inside]
    simp only [Bool.false_eq_true, if_false, Run.bind_apply, got s rfl, Run.andThen_ok, stored]
    have behind : base + (i + 4) = base + i + UInt32.ofNat (wordBytes word).length :=
      (UInt32.add_assoc base i 4).symm
    have length : (words.flatMap wordBytes).length = 4 * words.length := wordBytes_length words
    have fits : (wordBytes word).length + (words.flatMap wordBytes).length ≤ 2 ^ 32 := by
      rw [length]
      change 4 + _ ≤ _
      omega
    have enough' : words.length < rounds + 1 := Nat.lt_of_succ_lt_succ enough
    have free' : FreeWords s.region (base + (i + 4)) words.length := by rwa [← UInt32.add_assoc]
    have later := ih (i := i + 4) (s := { s with streams := d, memory := s.memory.place (base + i) (wordBytes word) })
      (checksum + word) rest (by omega) (by omega) (fun _ => base_aligned) free' rounds enough'
    rw [behind, place_append _ _ _ _ fits] at later
    simpa only [ne_eq, not_true_eq_false, decide_false, List.sum_cons, UInt32.add_assoc,
      List.flatMap_cons] using later

/-- The sum with the checksum is all ones exactly if the checksum is the complement of
the sum. -/
theorem checksum_iff (checksum sum : UInt32) : checksum + sum + 1 = 0 ↔ checksum = ~~~ sum := by
  have complement : (~~~ sum).toNat = 2 ^ 32 - 1 - sum.toNat := UInt32.toNat_not sum
  have one : (1 : UInt32).toNat = 1 := rfl
  have zero : (0 : UInt32).toNat = 0 := rfl
  have small := checksum.toNat_lt
  have small' := sum.toNat_lt
  rw [← UInt32.toNat_inj, ← UInt32.toNat_inj, UInt32.toNat_add, UInt32.toNat_add, complement, one, zero]
  omega

/-- The bootloader behind words that it has put in its memory. -/
def Boot.placed (base : UInt32) (words : List UInt32) (d : Streams σ) (s : Boot σ) : Boot σ :=
  { s with exeBase := base, exeSize := 0, memory := s.memory.place base (words.flatMap wordBytes), streams := d }

def Boot.say (text : List UInt8) (s : Boot σ) : Boot σ := { s with output := s.output ++ crlf text }

/-- An executable on the stream is put in the memory and then checked. -/
theorem systemAppLoad_yields {devInit : Loader σ Int} {words : List UInt32} {base size checksum : UInt32}
    {rounds : Nat} {s : Boot σ}
    (ready : devInit { s with exeSize := 0 } = .ok 0 { s with exeSize := 0, streams := d })
    (yields : Yields streamGet d ([binSignature, base, size, checksum] ++ words) d')
    (counted : words.length = (size.toNat + 3) / 4) (reached : size.toNat ≤ 2 ^ 32 - 4)
    (aligned : words ≠ [] → base.toNat % 4 = 0) (free : FreeWords s.region base words.length)
    (enough : words.length < rounds) :
    systemAppLoad rounds devInit streamGet s =
      if checksum = ~~~ words.sum then
        .ok 0 ({ s.placed base words d' with exeSize := size }.say (bytes "OK\n"))
      else .ok 1 ((s.placed base words d').say (bytes "\x07ERROR_CHECKSUM\n")) := by
  obtain ⟨d₁, signature, yields⟩ := yields_cons yields
  obtain ⟨d₂, base_word, yields⟩ := yields_cons yields
  obtain ⟨d₃, size_word, yields⟩ := yields_cons yields
  obtain ⟨d₄, checksum_word, yields⟩ := yields_cons yields
  rw [← UInt32.add_zero base] at free
  have transferred := transferLoop_yields (i := 0) (s := { s with exeSize := 0, exeBase := base, streams := d₄ })
    checksum yields counted reached rfl aligned free enough
  rw [UInt32.add_zero] at transferred
  simp only [systemAppLoad, Run.bind_apply, Run.modify_apply, Run.andThen_ok, ready, signature,
    base_word, size_word, checksum_word, ne_eq, not_true_eq_false, decide_false,
    Bool.or_self, if_false, transferred, Bool.false_eq_true, checksum_iff, Run.ite_apply, uartPuts_apply,
    Run.pure_apply, ite_not]
  rfl

/-! ## What has been on the stream -/

/-- A computation that depends on the streams only, and changes nothing else. -/
def Framed {α : Type} (program : Loader σ α) : Prop :=
  ∀ s value s', program s = .ok value s' →
    ∃ d', s' = { s with streams := d' } ∧
      ∀ u : Boot σ, u.streams = s.streams → program u = .ok value { u with streams := d' }

/-- A computation that returns at once depends on nothing and changes nothing. -/
theorem framed_pure {α : Type} (value : α) : Framed (pure value : Loader σ α) := by
  intro s result s' returned
  rw [Run.pure_apply, Outcome.ok.injEq] at returned
  obtain ⟨rfl, rfl⟩ := returned
  refine ⟨s.streams, rfl, ?_⟩
  rintro u same
  rw [Run.pure_apply, ← same]

/-- Computations that touch only the streams may follow one another. -/
theorem framed_bind {α β : Type} {first : Loader σ α} {next : α → Loader σ β} (head : Framed first)
    (tail : ∀ value, Framed (next value)) : Framed (first >>= next) := by
  intro s value s' returned
  obtain ⟨result, middle, ran, continued⟩ := Run.bind_ok returned
  obtain ⟨d₁, rfl, again⟩ := head s result middle ran
  obtain ⟨d', rfl, again'⟩ := tail result _ value s' continued
  refine ⟨d', rfl, ?_⟩
  intro u same
  rw [Run.bind_apply, again u same, Run.andThen_ok, again' { u with streams := d₁ } rfl]

/-- A choice between such computations is one, as long as its condition does not look at
the rest. -/
theorem framed_ite {α : Type} {condition : Prop} [Decidable condition] {yes no : Loader σ α}
    (left : Framed yes) (right : Framed no) : Framed (if condition then yes else no) := by
  split
  · exact left
  · exact right

/-- A store that comes back has been to an aligned word of free memory. -/
theorem store_ok {addr wdata : UInt32} {s s' : Boot σ} (returned : storeUnsignedWord addr wdata s = .ok ⟨⟩ s') :
    addr.toNat % 4 = 0 ∧ s.region addr = .ram ∧
      s' = { s with memory := s.memory.place addr (wordBytes wdata) } := by
  by_cases word : addr % 4 = 0
  · cases behind : s.region addr with
    | ram =>
      simp only [storeUnsignedWord, Run.bind_apply, Run.get_apply, Run.andThen_ok, if_pos word, behind,
        Run.modify_apply, Outcome.ok.injEq] at returned
      rw [← UInt32.toNat_inj, UInt32.toNat_mod] at word
      exact ⟨word, rfl, returned.2.symm⟩
    | rom => simp [storeUnsignedWord, word, behind] at returned
    | own => simp [storeUnsignedWord, word, behind] at returned
    | device => simp [storeUnsignedWord, word, behind] at returned
    | nothing => simp [storeUnsignedWord, word, behind] at returned
  · simp [storeUnsignedWord, word] at returned

/-- Words have been on the stream if a transfer comes to its end. -/
theorem transferLoop_ok (framed : Framed streamGet)
    (certain : ∀ s result s', streamGet s = .ok result s' → result.1 = 0) {base size i checksum : UInt32}
    {rounds : Nat} {s s' : Boot σ} {rc : Bool} {sum : UInt32} (multiple : i.toNat % 4 = 0)
    (returned : transferLoop streamGet base size rounds i false checksum s = .ok (rc, sum) s') :
    ∃ words, Yields streamGet s.streams words s'.streams ∧
      words.length = (size.toNat - i.toNat + 3) / 4 ∧ size.toNat ≤ 2 ^ 32 - 4 ∧
      (words ≠ [] → base.toNat % 4 = 0) ∧ FreeWords s.region (base + i) words.length ∧
      words.length < rounds ∧ rc = false ∧ sum = checksum + words.sum := by
  induction rounds generalizing i checksum s with
  | zero => simp [transferLoop] at returned
  | succ rounds ih =>
    have bound := i.toNat_lt
    rw [transferLoop] at returned
    by_cases inside : i < size
    · have less := UInt32.lt_iff_toNat_lt.mp inside
      simp only [if_pos inside, Bool.false_eq_true, if_false] at returned
      obtain ⟨⟨status, tmp⟩, t, got, returned⟩ := Run.bind_ok returned
      obtain rfl : status = 0 := certain s _ t got
      obtain ⟨d, rfl, again⟩ := framed s _ t got
      obtain ⟨⟨⟩, u, stored, returned⟩ := Run.bind_ok returned
      obtain ⟨aligned, here, rfl⟩ := store_ok stored
      rw [UInt32.toNat_add] at aligned
      have multiple' : (i + 4).toNat % 4 = 0 := by
        have four : (4 : UInt32).toNat = 4 := rfl
        rw [UInt32.toNat_add, four]
        omega
      obtain ⟨words, later, counted, reached, -, free, fewer, intact, total⟩ := ih multiple' returned
      have next := next_position reached multiple inside
      rw [← UInt32.add_assoc] at free
      refine ⟨tmp :: words, Yields.cons again later, ?_, reached, fun _ => by omega, ?_, ?_, intact, ?_⟩
      · rw [List.length_cons, counted]
        omega
      · rw [List.length_cons, freeWords_succ]
        exact ⟨here, free⟩
      · rw [List.length_cons]
        omega
      · rw [total, List.sum_cons, UInt32.add_assoc]
    · have past : size.toNat ≤ i.toNat := by
        rw [UInt32.lt_iff_toNat_lt] at inside
        omega
      simp only [if_neg inside, Run.pure_apply, Outcome.ok.injEq, Prod.mk.injEq] at returned
      obtain ⟨⟨rfl, rfl⟩, rfl⟩ := returned
      refine ⟨[], Yields.nil _, ?_, by omega, fun some => absurd rfl some, freeWords_nil _ _, by simp, rfl,
        by simp⟩
      rw [List.length_nil]
      omega

/-- The bootloader that has taken an executable, and what is then on the streams. -/
def Boot.taken (image : AppImage) (d : Streams σ) (s : Boot σ) : Boot σ :=
  { s with
    exeBase := image.base
    exeSize := image.size
    memory := s.memory.place image.base image.data
    output := s.output ++ crlf (bytes "OK\n")
    streams := d }

/-- A load that finds an image on its streams takes it: the data is in the memory, and
the recorded base and size are those of the image. -/
theorem load_taken {devInit : Loader σ Int} {rounds : Nat} {s : Boot σ} (image : AppImage)
    (ready : devInit { s with exeSize := 0 } = .ok 0 { s with exeSize := 0, streams := d })
    (yields : Yields streamGet d image.transfer d') (free : FreeWords s.region image.base image.words.length)
    (enough : image.words.length < rounds) :
    systemAppLoad rounds devInit streamGet s = .ok 0 (s.taken image d') := by
  rw [systemAppLoad_yields ready yields image.counted image.reached image.aligned free enough, if_pos rfl]
  rfl

/-- If an executable is loaded, it has been on the stream, and its place is free memory. -/
theorem systemAppLoad_ok {devInit : Loader σ Int} (initialized : Framed devInit) (framed : Framed streamGet)
    (certain : ∀ s result s', streamGet s = .ok result s' → result.1 = 0) {rounds : Nat} {s s' : Boot σ}
    (loaded : systemAppLoad rounds devInit streamGet s = .ok 0 s') :
    ∃ (image : AppImage) (d d' : Streams σ),
      devInit { s with exeSize := 0 } = .ok 0 { s with exeSize := 0, streams := d } ∧
      Yields streamGet d image.transfer d' ∧ FreeWords s.region image.base image.words.length ∧
      s' = s.taken image d' := by
  have whole := loaded
  obtain ⟨⟨⟩, s₀, cleared, loaded⟩ := Run.bind_ok loaded
  cases cleared
  obtain ⟨status, s₁, ready, loaded⟩ := Run.bind_ok loaded
  obtain ⟨d, rfl, -⟩ := initialized _ _ _ ready
  by_cases refused : status ≠ 0
  · simp [refused] at loaded
  · obtain rfl : status = 0 := not_not.mp refused
    rw [if_neg refused] at loaded
    obtain ⟨⟨rc₀, signature⟩, s₂, got₀, loaded⟩ := Run.bind_ok loaded
    obtain ⟨⟨rc₁, base⟩, s₃, got₁, loaded⟩ := Run.bind_ok loaded
    obtain ⟨⟨rc₂, size⟩, s₄, got₂, loaded⟩ := Run.bind_ok loaded
    obtain ⟨⟨rc₃, checksum⟩, s₅, got₃, loaded⟩ := Run.bind_ok loaded
    obtain rfl : rc₀ = 0 := certain _ _ _ got₀
    obtain rfl : rc₁ = 0 := certain _ _ _ got₁
    obtain rfl : rc₂ = 0 := certain _ _ _ got₂
    obtain rfl : rc₃ = 0 := certain _ _ _ got₃
    obtain ⟨d₁, rfl, again₀⟩ := framed _ _ _ got₀
    obtain ⟨d₂, rfl, again₁⟩ := framed _ _ _ got₁
    obtain ⟨d₃, rfl, again₂⟩ := framed _ _ _ got₂
    obtain ⟨d₄, rfl, again₃⟩ := framed _ _ _ got₃
    obtain ⟨⟨⟩, s₆, based, loaded⟩ := Run.bind_ok loaded
    cases based
    by_cases signed : signature = binSignature
    · rw [if_neg (not_not.mpr signed)] at loaded
      obtain ⟨⟨rc, sum⟩, s₇, transferred, loaded⟩ := Run.bind_ok loaded
      obtain ⟨words, later, counted, reached, aligned, free, enough, rfl, rfl⟩ :=
        transferLoop_ok framed certain rfl transferred
      rw [UInt32.add_zero] at free
      by_cases intact : checksum + words.sum + 1 = 0
      · have summed := (checksum_iff checksum words.sum).mp intact
        subst signed
        subst summed
        have counted' : words.length = (size.toNat + 3) / 4 := counted
        have yields := Yields.cons again₀ (Yields.cons again₁ (Yields.cons again₂ (Yields.cons again₃ later)))
        refine ⟨⟨base, size, words, counted', reached, aligned⟩, d, s₇.streams, ready, yields, free, ?_⟩
        rw [load_taken ⟨base, size, words, counted', reached, aligned⟩ ready yields free enough,
          Outcome.ok.injEq] at whole
        exact whole.2.symm
      · simp [intact] at loaded
    · simp [signed] at loaded

end

end NeoSfp
