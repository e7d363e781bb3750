import NeoSfp.Grammar

/-!
# The scanners recognise the grammar

Soundness: what a scanner decodes is derived by the grammar from the characters
it used up. Completeness: where the grammar derives a chain, every scanner on
the way makes the derivation's choices. The two differ in one respect. A scanner
passes all `_` it meets, a derivation may leave some of them to what follows, so
ends of derivations are compared behind their `_`.
-/

namespace NeoSfp

/-! ## Bytes -/

/-- A scan that computes a nonterminal. -/
def Exact {α : Type} (scan : Scan α) (item : Nonterminal α) : Prop :=
  ∀ p value rest, scan p = .ok (value, rest) ↔ item p value rest

/-- The code's digit step is the positional one: the low four bits are free, so the
disjunction adds the digit. -/
theorem digit_step (n : Nat) (d : UInt8) (digit : d ∈ hexDigits) :
    n <<< 4 ||| (hexVal d).toNat = n * 16 + digitValue d := by
  obtain ⟨value, small⟩ := hexVal_digit d digit
  rw [value, Int.toNat_natCast, ← Nat.shiftLeft_add_eq_or_of_lt small, Nat.shiftLeft_eq]

/-- Two hex digits are read as the number they write, by two digit steps. -/
theorem hexPair_numeral (x y : UInt8) (xDigit : x ∈ hexDigits) (yDigit : y ∈ hexDigits) :
    hexPair x y = UInt8.ofNat (numeral 16 [x, y]) := by
  rw [hexPair, digit_step _ y yDigit, (hexVal_digit x xDigit).1, Int.toNat_natCast, numeral_pair,
    Nat.mul_comm]

/-- The scan of a hex byte computes what the grammar derives: two digits, and the byte
they write. -/
theorem scanHexByte_exact : Exact scanHexByte HexByte := by
  intro p value rest
  constructor
  · intro scanned
    match p with
    | [] => simp [scanHexByte] at scanned
    | [_] => simp [scanHexByte] at scanned
    | x :: y :: tail =>
      by_cases digits : (isHex x && isHex y) = true
      · simp only [scanHexByte, digits, if_true, Except.ok.injEq, Prod.mk.injEq] at scanned
        obtain ⟨rfl, rfl⟩ := scanned
        rw [Bool.and_eq_true, isHex_iff, isHex_iff] at digits
        rw [hexPair_numeral x y digits.1 digits.2]
        exact .pair tail digits.1 digits.2
      · simp [scanHexByte, digits] at scanned
  · rintro ⟨tail, xDigit, yDigit⟩
    have digits := And.intro ((isHex_iff _).mpr xDigit) ((isHex_iff _).mpr yDigit)
    simp [scanHexByte, digits, hexPair_numeral _ _ xDigit yDigit]

/-- The scan of an ASCII byte computes what the grammar derives: one letter or digit. -/
theorem scanAsciiByte_exact : Exact scanAsciiByte AsciiByte := by
  intro p value rest
  constructor
  · intro scanned
    obtain ⟨rfl, alnum⟩ := scanAsciiByte_ok scanned
    exact .alnum rest ((isAlnumLat_iff value).mp alnum)
  · rintro ⟨tail, member⟩
    simp [scanAsciiByte, (isAlnumLat_iff _).mpr member]

/-- What skipping passes over is a run of `_`. -/
theorem bars_skip (p : Text) : Bars p (skipBars p) := by
  fun_induction skipBars p with
  | case1 => exact .done []
  | case2 rest ih => exact .bar ih
  | case3 ch rest bar => exact .done _

/-- Texts that differ by a run of `_` in front are the same behind it. -/
theorem skipBars_bars {p q : Text} (bars : Bars p q) : skipBars p = skipBars q := by
  induction bars with
  | done p => rfl
  | bar bars ih => rw [← ih]; simp [skipBars]

/-- Two runs of `_` in a row are one. By induction on the first. -/
theorem bars_trans {p q r : Text} (first : Bars p q) (second : Bars q r) : Bars p r := by
  induction first with
  | done p => exact second
  | bar bars ih => exact .bar (ih second)

/-- A character other than `_` stops the skipping. -/
theorem skipBars_cons {ch : UInt8} (rest : Text) (other : ch ≠ byte '_') :
    skipBars (ch :: rest) = ch :: rest := by
  simp [skipBars, other]

/-- A binary digit is no `_`, so it is never skipped. -/
theorem isBin_bar (ch : UInt8) (bit : isBin ch = true) : ch ≠ byte '_' := by
  rintro rfl
  simp [isBin] at bit

/-- Shifting in a bit doubles the byte and adds the digit, modulo 256. -/
theorem shiftBit_value (v d : UInt8) (digit : d ∈ binDigits) :
    shiftBit v d = UInt8.ofNat (2 * v.toNat + digitValue d) := by
  have shifted : (v.toNat <<< 1) % 256 = (v.toNat % 128) <<< 1 := by
    rw [Nat.shiftLeft_eq, Nat.shiftLeft_eq]
    omega
  rw [binDigits_codes, List.mem_cons, List.mem_singleton] at digit
  rw [← UInt8.toNat_inj, shiftBit, UInt8.toNat_or, UInt8.toNat_shiftLeft, UInt8.toNat_ofNat']
  rcases digit with zero | one
  · have value : digitValue d = 0 := by rw [zero]; rfl
    have low : (d - byte '0').toNat = 0 := by rw [zero]; rfl
    rw [value, low]
    change (v.toNat <<< 1) % 256 ||| 0 = _
    rw [Nat.or_zero, Nat.shiftLeft_eq]
    omega
  · have value : digitValue d = 1 := by rw [one]; rfl
    have low : (d - byte '0').toNat = 1 := by rw [one]; rfl
    rw [value, low]
    change (v.toNat <<< 1) % 256 ||| 1 = _
    rw [shifted, ← Nat.shiftLeft_add_eq_or_of_lt (by decide : 1 < 2 ^ 1), Nat.shiftLeft_eq]
    omega

/-- The byte a number of further bits leads to: one digit moves from the text into the
value, modulo 256. -/
theorem bits_value (left : Nat) (v d : UInt8) (ds : Text) (digit : d ∈ binDigits)
    (length : ds.length = left) :
    UInt8.ofNat ((shiftBit v d).toNat * 2 ^ left + numeral 2 ds) =
      UInt8.ofNat (v.toNat * 2 ^ (left + 1) + numeral 2 (d :: ds)) := by
  rw [shiftBit_value v d digit, numeral_cons, length, ← UInt8.toNat_inj]
  simp only [UInt8.toNat_ofNat']
  rw [Nat.add_mod, Nat.mod_mul_mod, ← Nat.add_mod]
  congr 1
  ring

/-- Scanned bits are derived, and the value is that of the digits behind the one already
read. By induction on the bits left. -/
theorem scanBits_sound (left : Nat) (v : UInt8) (p : Text) (value : UInt8) (rest : Text)
    (scanned : scanBits left v p = .ok (value, rest)) :
    ∃ ds, Bits p ds rest ∧ ds.length = left ∧
      value = UInt8.ofNat (v.toNat * 2 ^ left + numeral 2 ds) := by
  fun_induction scanBits left v p with
  | case1 v p =>
    cases scanned
    exact ⟨[], .done _, rfl, by simp⟩
  | case2 v n => simp at scanned
  | case3 left v tail ih =>
    obtain ⟨ds, bits, length, result⟩ := ih scanned
    refine ⟨ds, ?_, length, result⟩
    cases bits with
    | done => simp at length
    | bit bars digit more => exact .bit (.bar bars) digit more
  | case4 left v ch tail bar bit ih =>
    obtain ⟨ds, bits, length, result⟩ := ih scanned
    have digit := (isBin_iff ch).mp bit
    refine ⟨ch :: ds, .bit (.done _) digit bits, by rw [List.length_cons, length], ?_⟩
    rw [result, bits_value left v ch ds digit length]
  | case5 left v ch tail bar bit => simp at scanned

/-- While bits are left the scan skips `_` first, so a run of them in front does not
matter. -/
theorem scanBits_bars (left : Nat) (v : UInt8) {p q : Text} (bars : Bars p q) :
    scanBits (left + 1) v p = scanBits (left + 1) v q := by
  induction bars with
  | done p => rfl
  | bar bars ih => simpa [scanBits] using ih

/-- Derived bits are scanned with the value they write. By induction on the
derivation. -/
theorem scanBits_complete {p ds rest : Text} (bits : Bits p ds rest) (v : UInt8) :
    scanBits ds.length v p =
      .ok (UInt8.ofNat (v.toNat * 2 ^ ds.length + numeral 2 ds), rest) := by
  induction bits generalizing v with
  | done p => simp [scanBits]
  | @bit p q r d ds bars digit more ih =>
    have bit := (isBin_iff d).mpr digit
    rw [List.length_cons, scanBits_bars _ v bars, scanBits, if_neg (isBin_bar d bit), if_pos bit,
      ih, bits_value _ v d ds digit rfl]

/-- The scan of a binary byte computes what the grammar derives: eight bits with their
separators, and the byte they write. -/
theorem scanBinByte_exact : Exact scanBinByte Octet := by
  intro p value rest
  constructor
  · intro scanned
    obtain ⟨ds, bits, length, rfl⟩ := scanBits_sound 8 0 p value rest scanned
    simpa using Octet.eight bits length
  · rintro ⟨bits, length⟩
    have scanned := scanBits_complete bits 0
    rw [length] at scanned
    simpa [scanBinByte] using scanned

/-! ## Runs of bytes -/

/-- The test for a further byte accepts wherever a byte is derived. -/
def Leads (more : Text → Bool) (item : Nonterminal UInt8) : Prop :=
  ∀ p b q, item p b q → more p = true

/-- A run that ends well without a byte ends where it began. -/
theorem scanRun_none (more : Text → Bool) (decoder : Decoder) (p rest : Text)
    (none : (scanRun more decoder p).items = [])
    (ended : (scanRun more decoder p).stop = .ok rest) : rest = p := by
  fun_induction scanRun more decoder p with
  | case1 p again s scanned => simp at ended
  | case2 p again b q scanned tail ih => simp at none
  | case3 p again =>
    cases ended
    rfl

/-- A run that ends well has decoded nothing or a repetition, and ends where no further
byte is announced. By induction along the scan. -/
theorem scanRun_sound (more : Text → Bool) (decoder : Decoder) (item : Nonterminal UInt8)
    (exact : Exact decoder.scan item) (p rest : Text)
    (ended : (scanRun more decoder p).stop = .ok rest) :
    more rest = false ∧ ((scanRun more decoder p).items = [] ∨
      Plus item p (scanRun more decoder p).bytes rest) := by
  fun_induction scanRun more decoder p with
  | case1 p again s scanned => simp at ended
  | case2 p again b q scanned tail ih =>
    have first := (exact p b q).mp scanned
    obtain ⟨stopped, none | some⟩ := ih ended
    · refine ⟨stopped, Or.inr ?_⟩
      obtain rfl := scanRun_none more decoder q rest none ended
      have bytes : Group.bytes ⟨(b, rest) :: tail.items, tail.stop⟩ = [b] := by
        simp [Group.bytes, tail, none]
      rw [bytes]
      exact .one first
    · exact ⟨stopped, Or.inr (.more first some)⟩
  | case3 p again =>
    cases ended
    exact ⟨by simpa using again, Or.inl rfl⟩

/-- A run goes on behind derived bytes as it would there: wherever a byte is derived it
announces one and decodes the same. -/
theorem scanRun_over (more : Text → Bool) (decoder : Decoder) (item : Nonterminal UInt8)
    (exact : Exact decoder.scan item) (leads : Leads more item) {p rest : Text} {bs : List UInt8}
    (derived : Plus item p bs rest) :
    (scanRun more decoder p).bytes = bs ++ (scanRun more decoder rest).bytes ∧
      (scanRun more decoder p).stop = (scanRun more decoder rest).stop := by
  induction derived with
  | @one p q b first =>
    have scanned := (exact p b q).mpr first
    rw [scanRun, if_pos (leads p b q first)]
    split
    · next s failed => simp [scanned] at failed
    · next b' q' again =>
      rw [scanned] at again
      cases again
      exact ⟨rfl, rfl⟩
  | @more p q r b bs first others ih =>
    have scanned := (exact p b q).mpr first
    rw [scanRun, if_pos (leads p b q first)]
    split
    · next s failed => simp [scanned] at failed
    · next b' q' again =>
      rw [scanned] at again
      cases again
      exact ⟨congrArg (b :: ·) ih.1, ih.2⟩

/-- A derived run that ends where no byte is announced is scanned as derived. -/
theorem scanRun_complete (more : Text → Bool) (decoder : Decoder) (item : Nonterminal UInt8)
    (exact : Exact decoder.scan item) (leads : Leads more item) {p rest : Text} {bs : List UInt8}
    (derived : Plus item p bs rest) (stops : more rest = false) :
    (scanRun more decoder p).bytes = bs ∧ (scanRun more decoder p).stop = .ok rest := by
  obtain ⟨bytes, ended⟩ := scanRun_over more decoder item exact leads derived
  rw [bytes, ended, scanRun, if_neg (by simp [stops])]
  exact ⟨List.append_nil bs, rfl⟩

/-- A group that must not be empty ends well only if it has a byte. -/
theorem orEmpty_ok {g : Group} {empty : Msg} {rest : Text}
    (ended : (g.orEmpty empty).stop = .ok rest) : g.stop = .ok rest ∧ g.items ≠ [] := by
  obtain ⟨items, stop⟩ := g
  cases items with
  | nil => cases stop <;> simp [Group.orEmpty] at ended
  | cons item items => exact ⟨ended, List.cons_ne_nil _ _⟩

/-- The test for an empty group changes nothing where there is a byte. -/
theorem orEmpty_some {g : Group} {empty : Msg} (some : g.items ≠ []) : g.orEmpty empty = g := by
  obtain ⟨items, stop⟩ := g
  cases items with
  | nil => exact absurd rfl some
  | cons item items => rfl

/-- A repetition has an item. -/
theorem plus_ne_nil {α : Type} {item : Nonterminal α} {p rest : Text} {as : List α}
    (derived : Plus item p as rest) : as ≠ [] := by
  cases derived <;> simp

/-- A run of at least one byte computes `Plus`, up to a place where it stops. -/
theorem run_exact (more : Text → Bool) (decoder : Decoder) (item : Nonterminal UInt8)
    (empty : Msg) (exact : Exact decoder.scan item) (leads : Leads more item) (p rest : Text)
    (bs : List UInt8) :
    ((scanRun more decoder p).orEmpty empty).stop = .ok rest ∧ (scanRun more decoder p).bytes = bs
      ↔ Plus item p bs rest ∧ more rest = false := by
  constructor
  · rintro ⟨ended, rfl⟩
    obtain ⟨ended, some⟩ := orEmpty_ok ended
    obtain ⟨stopped, none | derived⟩ := scanRun_sound more decoder item exact p rest ended
    · exact absurd none some
    · exact ⟨derived, stopped⟩
  · rintro ⟨derived, stops⟩
    obtain ⟨bytes, ended⟩ := scanRun_complete more decoder item exact leads derived stops
    have some : (scanRun more decoder p).items ≠ [] := by
      intro none
      simp only [Group.bytes, none, List.map_nil] at bytes
      exact plus_ne_nil derived bytes.symm
    exact ⟨by rw [orEmpty_some some, ended], bytes⟩

/-- A hex byte is announced by its first digit. -/
theorem headIs_hex_leads : Leads (headIs isHex) HexByte := by
  rintro p b q ⟨q, xDigit, yDigit⟩
  exact (isHex_iff _).mpr xDigit

/-- An ASCII byte is announced by itself. -/
theorem headIs_alnum_leads : Leads (headIs isAlnumLat) AsciiByte := by
  rintro p b q ⟨q, member⟩
  exact (isAlnumLat_iff _).mpr member

/-- A binary byte is announced by its first digit, behind any `_`. -/
theorem binAhead_leads : Leads binAhead Octet := by
  rintro p b q ⟨bits, length⟩
  cases bits with
  | done => simp at length
  | @bit p q r d ds bars digit more =>
    have bit := (isBin_iff d).mpr digit
    rw [binAhead, skipBars_bars bars, skipBars_cons q (isBin_bar d bit)]
    exact bit

/-! ## Payloads -/

/-- A command may end here: behind any `_` comes another command or the end. -/
def Follow (q : Text) : Prop := skipBars q = [] ∨ startsCmd (skipBars q) = true

/-- A payload byte run may end here: behind any `_` comes no character that could
belong to it. -/
def Boundary (r : Text) : Prop := ∀ ch rest, skipBars r = ch :: rest → isSelector ch = true

/-- A command starts with an `h`. -/
theorem startsCmd_selector {ch : UInt8} {rest : Text} (start : startsCmd (ch :: rest) = true) :
    ch = byte 'h' := by
  match rest with
  | [] => simp [startsCmd] at start
  | [_] => simp [startsCmd] at start
  | _ :: _ :: _ =>
    simp only [startsCmd, Bool.and_eq_true, beq_iff_eq] at start
    exact start.1.1

/-- Where a command may end a byte run may end, because what may follow a command is no
byte. -/
theorem follow_boundary {q : Text} (follow : Follow q) : Boundary q := by
  intro ch rest behind
  rcases follow with finished | start
  · simp [finished] at behind
  · rw [behind] at start
    rw [startsCmd_selector start]
    rfl

/-- A byte run may end in front of a selector. -/
theorem boundary_cons {ch : UInt8} (rest : Text) (selector : isSelector ch = true) :
    Boundary (ch :: rest) := by
  intro first tail behind
  have other : ch ≠ byte '_' := by
    rintro rfl
    simp [isSelector] at selector
  rw [skipBars_cons rest other] at behind
  cases behind
  exact selector

/-- In front of a payload a byte run may end: the payload begins with a selector or goes
on with what follows. -/
theorem payload_boundary {r q : Text} {bs : List UInt8} (derived : Payload r bs q)
    (boundary : Boundary q) : Boundary r := by
  induction derived with
  | done p => exact boundary
  | bar derived ih => simpa [Boundary, skipBars] using ih boundary
  | hex => exact boundary_cons _ rfl
  | bin => exact boundary_cons _ rfl
  | ascii => exact boundary_cons _ rfl

/-- At a boundary stands the end, a `_` or a selector, and nothing that a run could go
on with. -/
theorem boundary_head {ch : UInt8} {rest : Text} (boundary : Boundary (ch :: rest)) :
    ch = byte '_' ∨ isSelector ch = true := by
  by_cases bar : ch = byte '_'
  · exact Or.inl bar
  · exact Or.inr (boundary ch rest (skipBars_cons rest bar))

/-- The selectors are the three letters. -/
theorem selector_cases {ch : UInt8} (selector : isSelector ch = true) :
    ch = byte 'h' ∨ ch = byte 'b' ∨ ch = byte 'a' := by
  simpa [isSelector, or_assoc] using selector

/-- At a boundary no hex byte is announced, since neither `_` nor a selector is a hex
digit in upper case. -/
theorem boundary_hex {r : Text} (boundary : Boundary r) : headIs isHex r = false := by
  cases r with
  | nil => rfl
  | cons ch rest =>
    rcases boundary_head boundary with rfl | selector
    · rfl
    · rcases selector_cases selector with rfl | rfl | rfl <;> rfl

/-- At a boundary no binary byte is announced, also behind the `_`. -/
theorem boundary_bin {r : Text} (boundary : Boundary r) : binAhead r = false := by
  unfold binAhead
  cases behind : skipBars r with
  | nil => rfl
  | cons ch rest => rcases selector_cases (boundary ch rest behind) with rfl | rfl | rfl <;> rfl

/-- A hex group is scanned exactly if it is derived as far as its digits go. -/
theorem hexGroup_exact (p rest : Text) (bs : List UInt8) :
    (scanHexGroup p).stop = .ok rest ∧ (scanHexGroup p).bytes = bs ↔
      Plus HexByte p bs rest ∧ headIs isHex rest = false := by
  rw [← run_exact _ hexDecoder HexByte .emptyHex scanHexByte_exact headIs_hex_leads p rest bs]
  simp [scanHexGroup, Group.bytes]

/-- A binary group is scanned exactly if it is derived as far as its bits go. -/
theorem binGroup_exact (p rest : Text) (bs : List UInt8) :
    (scanBinGroup p).stop = .ok rest ∧ (scanBinGroup p).bytes = bs ↔
      Plus Octet p bs rest ∧ binAhead rest = false := by
  rw [← run_exact _ binDecoder Octet .emptyBinary scanBinByte_exact binAhead_leads p rest bs]
  simp [scanBinGroup, Group.bytes]

/-- An ASCII run ends at the end of the text or at a `_`, which it takes along. -/
theorem asciiGroup_sound (p rest : Text) (ended : (scanAsciiGroup p).stop = .ok rest) :
    ∃ r, Plus AsciiByte p (scanAsciiGroup p).bytes r ∧
      (r = [] ∧ rest = [] ∨ r = byte '_' :: rest) := by
  have run := run_exact (headIs isAlnumLat) asciiDecoder AsciiByte .emptyAscii
    scanAsciiByte_exact headIs_alnum_leads p
  unfold scanAsciiGroup at ended ⊢
  simp only [Group.bytes, orEmpty_items] at ended ⊢
  cases reached : ((scanRun (headIs isAlnumLat) asciiDecoder p).orEmpty .emptyAscii).stop with
  | error s => simp [reached, Except.bind] at ended
  | ok r =>
    obtain ⟨derived, stops⟩ := (run r _).mp ⟨reached, rfl⟩
    refine ⟨r, derived, ?_⟩
    rw [reached] at ended
    cases r with
    | nil =>
      simp only [Except.bind, scanAsciiEnd, Except.ok.injEq] at ended
      exact Or.inl ⟨rfl, ended.symm⟩
    | cons ch tail =>
      simp only [Except.bind, scanAsciiEnd] at ended
      split at ended
      · next bar =>
        cases ended
        exact Or.inr (by rw [bar])
      · split at ended
        · next start =>
          -- the run would not have stopped at the `h` of a command
          rw [startsCmd_selector start] at stops
          simp [headIs, isAlnumLat, byte] at stops
        · simp at ended

/-- A derived ASCII run that is closed, by a `_` or by the end of the line, is scanned
as derived. -/
theorem asciiGroup_complete {p r : Text} {bs : List UInt8} (derived : Plus AsciiByte p bs r)
    (closed : r = [] ∨ r.head? = some (byte '_')) :
    (scanAsciiGroup p).bytes = bs ∧ ∃ rest, (scanAsciiGroup p).stop = .ok rest ∧ Bars r rest := by
  have stops : headIs isAlnumLat r = false := by
    rcases closed with rfl | bar
    · rfl
    · obtain ⟨tail, rfl⟩ := List.head?_eq_some_iff.mp bar
      rfl
  obtain ⟨reached, bytes⟩ := (run_exact (headIs isAlnumLat) asciiDecoder AsciiByte .emptyAscii
    scanAsciiByte_exact headIs_alnum_leads p r bs).mpr ⟨derived, stops⟩
  unfold scanAsciiGroup
  simp only [Group.bytes, orEmpty_items] at bytes ⊢
  refine ⟨bytes, ?_⟩
  rw [reached]
  rcases closed with rfl | bar
  · exact ⟨[], rfl, .done []⟩
  · obtain ⟨tail, rfl⟩ := List.head?_eq_some_iff.mp bar
    exact ⟨tail, rfl, .bar (.done tail)⟩

/-- The scan of a payload passes its leading `_`, one round for each. -/
theorem scanPayload_bar (p : Text) : scanPayload (byte '_' :: p) = scanPayload p := by
  have other : startsCmd (byte '_' :: p) = false := by
    cases p with
    | nil => rfl
    | cons _ p => cases p <;> rfl
  rw [scanPayload, if_neg (by simp [other]), if_pos rfl]

/-- Leading `_` make no difference to the scan of a payload. By induction on them. -/
theorem scanPayload_bars {p q : Text} (bars : Bars p q) : scanPayload p = scanPayload q := by
  induction bars with
  | done p => rfl
  | bar bars ih => rw [scanPayload_bar, ih]

/-- One round of the payload's scan behind a selector: the bytes of its group, and those
of the payload behind it. -/
theorem scanPayload_group {fc : UInt8} {p rest : Text} (bar : fc ≠ byte '_')
    (start : startsCmd (fc :: p) = false) (ended : (scanGroup fc p).stop = .ok rest) :
    (scanPayload (fc :: p)).bytes = (scanGroup fc p).bytes ++ (scanPayload rest).bytes ∧
      (scanPayload (fc :: p)).stop = (scanPayload rest).stop := by
  rw [scanPayload, if_neg (by simp [start]), if_neg bar]
  split
  · next s failed => simp [ended] at failed
  · next q again =>
    rw [ended] at again
    cases again
    exact ⟨by simp [Group.bytes], rfl⟩

/-- A payload that is scanned to its end begins with a group that is. -/
theorem scanPayload_first {fc : UInt8} {p r : Text} (bar : fc ≠ byte '_')
    (start : startsCmd (fc :: p) = false) (ended : (scanPayload (fc :: p)).stop = .ok r) :
    ∃ q, (scanGroup fc p).stop = .ok q ∧
      (scanPayload (fc :: p)).bytes = (scanGroup fc p).bytes ++ (scanPayload q).bytes ∧
      (scanPayload q).stop = .ok r := by
  cases reached : (scanGroup fc p).stop with
  | error s =>
    rw [scanPayload, if_neg (by simp [start]), if_neg bar] at ended
    split at ended
    · simp at ended
    · next q again =>
      rw [reached] at again
      simp at again
  | ok q =>
    obtain ⟨bytes, stop⟩ := scanPayload_group bar start reached
    rw [stop] at ended
    exact ⟨q, rfl, bytes, ended⟩

/-- Behind an `h` a hex byte starts a command exactly if it is one of the control
bytes. -/
theorem hexByte_text {p q : Text} {b : UInt8} (derived : HexByte p b q) :
    startsCmd (byte 'h' :: p) = true ↔ b ∈ ctrlBytes := by
  cases derived with
  | @pair x y q xDigit yDigit =>
    have xSmall := (hexVal_digit x xDigit).2
    have ySmall := (hexVal_digit y yDigit).2
    have small : numeral 16 [x, y] < 256 := by
      rw [numeral_pair]
      omega
    rw [ctrl_value xDigit yDigit q]
    constructor
    · rintro ⟨b, member, value⟩
      rwa [value, UInt8.ofNat_toNat]
    · intro member
      exact ⟨_, member, by rw [UInt8.toNat_ofNat', Nat.mod_eq_of_lt small]⟩

/-- Behind an `h` a hex group starts a command exactly if its first byte is one of the
control bytes. -/
theorem plus_hex_ctrl {p q : Text} {b : UInt8} {bs : List UInt8}
    (derived : Plus HexByte p (b :: bs) q) :
    startsCmd (byte 'h' :: p) = true ↔ b ∈ ctrlBytes := by
  cases derived with
  | one first => exact hexByte_text first
  | more first others => exact hexByte_text first

/-- Only `h` starts a command, so the other groups need no test. -/
theorem startsCmd_other {fc : UInt8} (p : Text) (other : fc ≠ byte 'h') :
    startsCmd (fc :: p) = false := by
  cases start : startsCmd (fc :: p) with
  | false => rfl
  | true => exact absurd (startsCmd_selector start) other

/-- A group that ends well is derived, in front of any payload. There is one case for
each selector. -/
theorem scanGroup_sound {fc : UInt8} {p rest q : Text} {more : List UInt8}
    (start : startsCmd (fc :: p) = false) (ended : (scanGroup fc p).stop = .ok rest)
    (behind : Payload rest more q) : Payload (fc :: p) ((scanGroup fc p).bytes ++ more) q := by
  unfold scanGroup at ended ⊢
  split at ended
  · next h =>
    rw [if_pos h]
    obtain ⟨derived, -⟩ := (hexGroup_exact p rest _).mp ⟨ended, rfl⟩
    cases found : (scanHexGroup p).bytes with
    | nil => exact absurd found (plus_ne_nil derived)
    | cons b bs =>
      rw [found] at derived
      have ordinary : b ∉ ctrlBytes := by
        intro ctrl
        rw [h, (plus_hex_ctrl derived).mpr ctrl] at start
        simp at start
      exact h ▸ .hex derived ordinary behind
  · next h =>
    rw [if_neg h]
    split at ended
    · next b =>
      rw [if_pos b]
      obtain ⟨derived, -⟩ := (binGroup_exact p rest _).mp ⟨ended, rfl⟩
      exact b ▸ .bin derived behind
    · next b =>
      rw [if_neg b]
      split at ended
      · next a =>
        rw [if_pos a]
        obtain ⟨r, derived, ⟨rfl, rfl⟩ | rfl⟩ := asciiGroup_sound p rest ended
        · exact a ▸ .ascii derived (Or.inl rfl) behind
        · exact a ▸ .ascii derived (Or.inr rfl) (.bar behind)
      · simp at ended

/-- A payload that is scanned to its end is derived. By induction along the scan, one
group or `_` at a time. -/
theorem scanPayload_sound (p rest : Text) (ended : (scanPayload p).stop = .ok rest) :
    Payload p (scanPayload p).bytes rest := by
  fun_induction scanPayload p with
  | case1 =>
    cases ended
    exact .done []
  | case2 fc p start =>
    cases ended
    exact .done _
  | case3 p start ih => exact .bar (ih ended)
  | case4 fc p start bar s failed => simp at ended
  | case5 fc p start bar q reached more ih =>
    have bytes : Group.bytes ⟨(scanGroup fc p).items ++ more.items, more.stop⟩ =
        (scanGroup fc p).bytes ++ more.bytes := by
      simp [Group.bytes]
    rw [bytes]
    exact scanGroup_sound (by simpa using start) reached (ih ended)

/-- The scan of a payload goes on behind derived bytes as it would there. -/
theorem scanPayload_over {p q : Text} {bs : List UInt8} (derived : Payload p bs q)
    (boundary : Boundary q) :
    (scanPayload p).bytes = bs ++ (scanPayload q).bytes ∧
      (scanPayload p).stop = (scanPayload q).stop := by
  induction derived with
  | done p => exact ⟨rfl, rfl⟩
  | bar derived ih =>
    rw [scanPayload_bar]
    exact ih boundary
  | @hex p q r b bs more first ordinary derived ih =>
    obtain ⟨bytes, ended⟩ := ih boundary
    have start : startsCmd (byte 'h' :: p) = false := by
      rw [← Bool.not_eq_true, plus_hex_ctrl first]
      exact ordinary
    obtain ⟨reached, group⟩ := (hexGroup_exact p r (b :: bs)).mpr
      ⟨first, boundary_hex (payload_boundary derived boundary)⟩
    have selected : (scanGroup (byte 'h') p).stop = .ok r := reached
    have named : (scanGroup (byte 'h') p).bytes = b :: bs := group
    have round := scanPayload_group (by simp) start selected
    rw [round.1, round.2, bytes, ended, named, List.append_assoc]
    exact ⟨rfl, rfl⟩
  | @bin p q r bs more first derived ih =>
    obtain ⟨bytes, ended⟩ := ih boundary
    obtain ⟨reached, group⟩ := (binGroup_exact p r bs).mpr
      ⟨first, boundary_bin (payload_boundary derived boundary)⟩
    have selected : (scanGroup (byte 'b') p).stop = .ok r := reached
    have named : (scanGroup (byte 'b') p).bytes = bs := group
    have round := scanPayload_group (by simp) (startsCmd_other p (by simp)) selected
    rw [round.1, round.2, bytes, ended, named, List.append_assoc]
    exact ⟨rfl, rfl⟩
  | @ascii p q r bs more first closed derived ih =>
    obtain ⟨bytes, ended⟩ := ih boundary
    obtain ⟨group, rest, reached, bars⟩ := asciiGroup_complete first closed
    have selected : (scanGroup (byte 'a') p).stop = .ok rest := reached
    have named : (scanGroup (byte 'a') p).bytes = bs := group
    have round := scanPayload_group (by simp) (startsCmd_other p (by simp)) selected
    rw [round.1, round.2, ← scanPayload_bars bars, bytes, ended, named, List.append_assoc]
    exact ⟨rfl, rfl⟩

/-- Nothing is decoded where a command may end; only the `_` there are passed. -/
theorem scanPayload_follow {q : Text} (follow : Follow q) :
    scanPayload q = ⟨[], .ok (skipBars q)⟩ := by
  rw [scanPayload_bars (bars_skip q)]
  rcases follow with finished | start
  · rw [finished, scanPayload]
  · cases behind : skipBars q with
    | nil => simp [behind, startsCmd] at start
    | cons ch rest =>
      rw [behind] at start
      rw [scanPayload, if_pos start]

/-- A derived payload where a command may end is scanned as derived. -/
theorem scanPayload_complete {p q : Text} {bs : List UInt8} (derived : Payload p bs q)
    (follow : Follow q) :
    (scanPayload p).bytes = bs ∧ (scanPayload p).stop = .ok (skipBars q) := by
  obtain ⟨bytes, ended⟩ := scanPayload_over derived (follow_boundary follow)
  rw [bytes, ended, scanPayload_follow follow]
  exact ⟨List.append_nil bs, rfl⟩

/-! ## Internal addresses -/

/-- A scanned address is derived, and the scan has passed the `_` behind it. -/
theorem scanAddr_sound (p rest : Text) (a : UInt8) (scanned : scanAddr p = .ok (a, rest)) :
    ∃ q, IAddr p a q ∧ Bars q rest := by
  have bars := bars_skip p
  unfold scanAddr at scanned
  split at scanned
  · simp at scanned
  · next fc tail behind =>
    rw [behind] at bars
    split at scanned
    · next selector =>
      rcases selector_cases selector with rfl | rfl | rfl
      · exact ⟨rest, .hex bars ((scanHexByte_exact tail a rest).mp scanned), .done rest⟩
      · exact ⟨rest, .bin bars ((scanBinByte_exact tail a rest).mp scanned), .done rest⟩
      · have notHex : byte 'a' ≠ byte 'h' := by simp
        have notBin : byte 'a' ≠ byte 'b' := by simp
        simp only [scanAddrByte, if_neg notHex, if_neg notBin] at scanned
        split at scanned
        · simp at scanned
        · next b ch after read =>
          simp only [Except.ok.injEq, Prod.mk.injEq] at scanned
          obtain ⟨rfl, rfl⟩ := scanned
          refine ⟨ch :: after, .ascii bars ((scanAsciiByte_exact _ _ _).mp read), ?_⟩
          split
          · next bar => exact bar ▸ .bar (.done after)
          · exact .done _
        · next b read =>
          simp only [Except.ok.injEq, Prod.mk.injEq] at scanned
          obtain ⟨rfl, rfl⟩ := scanned
          exact ⟨[], .ascii bars ((scanAsciiByte_exact _ _ _).mp read), .done []⟩
    · simp at scanned

/-- The scan behind the `_` and the selector of an address is the scan of its byte. -/
theorem scanAddr_selector {p q : Text} {fc : UInt8} (bars : Bars p (fc :: q))
    (selector : isSelector fc = true) : scanAddr p = scanAddrByte fc q := by
  have other : fc ≠ byte '_' := by
    rintro rfl
    simp [isSelector] at selector
  have behind : skipBars p = fc :: q := by rw [skipBars_bars bars, skipBars_cons q other]
  simp [scanAddr, behind, selector]

/-- A derived address is scanned with its byte; only `_` may be left between the two
ends. -/
theorem scanAddr_complete {p q : Text} {a : UInt8} (derived : IAddr p a q) :
    ∃ rest, scanAddr p = .ok (a, rest) ∧ Bars q rest := by
  cases derived with
  | hex bars byte =>
    rw [scanAddr_selector bars rfl]
    exact ⟨q, (scanHexByte_exact _ _ _).mpr byte, .done q⟩
  | bin bars byte =>
    rw [scanAddr_selector bars rfl]
    exact ⟨q, (scanBinByte_exact _ _ _).mpr byte, .done q⟩
  | @ascii _ r _ _ bars byte =>
    have read := (scanAsciiByte_exact r a q).mpr byte
    rw [scanAddr_selector bars rfl]
    cases q with
    | nil => exact ⟨[], by simp [scanAddrByte, read], .done []⟩
    | cons ch after =>
      refine ⟨if ch = '_' then after else ch :: after, by simp [scanAddrByte, read], ?_⟩
      split
      · next bar => exact bar ▸ .bar (.done after)
      · exact .done _

/-! ## Read tails -/

/-- One digit moves from the text into the number, which is the step of the induction on
a count. -/
theorem digits_value (n : Nat) (d : UInt8) (ds : Text) :
    (n * 16 + digitValue d) * 16 ^ ds.length + numeral 16 ds =
      n * 16 ^ (d :: ds).length + numeral 16 (d :: ds) := by
  rw [numeral_cons, List.length_cons]
  ring

/-- Scanned digits are hex digits, at most as many as allowed, and the number goes on
with what they write. By induction on how many are left. -/
theorem scanCount_sound (left n : Nat) (p : Text) :
    ∃ ds, p = ds ++ (scanCount left n p).2 ∧ (∀ d ∈ ds, d ∈ hexDigits) ∧ ds.length ≤ left ∧
      (scanCount left n p).1 = n * 16 ^ ds.length + numeral 16 ds := by
  fun_induction scanCount left n p with
  | case1 n p => exact ⟨[], rfl, by simp, Nat.le_refl _, by simp⟩
  | case2 left n => exact ⟨[], rfl, by simp, Nat.zero_le _, by simp⟩
  | case3 left n ch rest digit ih =>
    obtain ⟨ds, text, digits, length, value⟩ := ih
    have member := (isHex_iff ch).mp digit
    refine ⟨ch :: ds, congrArg (ch :: ·) text, ?_, Nat.succ_le_succ length, ?_⟩
    · exact List.forall_mem_cons.mpr ⟨member, digits⟩
    · rw [value, digit_step n ch member, digits_value]
  | case4 left n ch rest digit => exact ⟨[], rfl, by simp, Nat.zero_le _, by simp⟩

/-- Digits that end in front of another character are scanned with the number they
write. By induction on them. -/
theorem scanCount_complete (left n : Nat) (ds q : Text) (digits : ∀ d ∈ ds, d ∈ hexDigits)
    (length : ds.length ≤ left) (stops : headIs isHex q = false) :
    scanCount left n (ds ++ q) = (n * 16 ^ ds.length + numeral 16 ds, q) := by
  induction ds generalizing left n with
  | nil =>
    match left, q with
    | 0, _ => simp [scanCount]
    | left + 1, [] => simp [scanCount]
    | left + 1, ch :: rest =>
      have other : isHex ch = false := stops
      simp [scanCount, other]
  | cons d ds ih =>
    obtain ⟨left, rfl⟩ : ∃ more, left = more + 1 := by
      cases left with
      | zero => simp at length
      | succ more => exact ⟨more, rfl⟩
    obtain ⟨member, digits⟩ := List.forall_mem_cons.mp digits
    rw [List.cons_append, scanCount, if_pos ((isHex_iff d).mpr member), digit_step n d member,
      ih left _ digits (Nat.le_of_succ_le_succ length), digits_value]

/-- The digits of a count are not taken for a command's, whatever follows them. -/
theorem count_notStart {ds q : Text} (count : CountDigits ds) (stops : headIs isHex q = false) :
    startsCmd (byte 'h' :: (ds ++ q)) = false := by
  have bytes := count.notCtrl
  match ds, count with
  | [], count => exact absurd count.nonempty (by simp)
  | [x], count =>
    match q with
    | [] => rfl
    | ch :: rest =>
      cases start : startsCmd (byte 'h' :: x :: ch :: rest) with
      | false => exact start
      | true =>
        simp only [startsCmd, Bool.and_eq_true, Bool.or_eq_true, beq_iff_eq] at start
        have other : isHex ch = false := stops
        rcases start.2 with ((rfl | rfl) | rfl) | rfl <;> simp [isHex, byte] at other
  | x :: y :: more, count =>
    obtain ⟨xDigit, rest⟩ := List.forall_mem_cons.mp count.digits
    have yDigit := (List.forall_mem_cons.mp rest).1
    rw [← Bool.not_eq_true, List.cons_append, List.cons_append, ctrl_value xDigit yDigit]
    rintro ⟨b, member, value⟩
    exact bytes b member value

/-- The selector of a format is read as the format the grammar names by it. -/
theorem fmtOf_letter {ff : UInt8} (selector : isSelector ff = true) :
    FormatLetter ff (fmtOf ff) := by
  rcases selector_cases selector with rfl | rfl | rfl
  · exact .hex
  · exact .bin
  · exact .ascii

/-- The end of a read is a `_`. -/
theorem scanClose_ok {p rest : Text} : scanClose p = .ok rest ↔ p = byte '_' :: rest := by
  cases p with
  | nil => simp [scanClose]
  | cons ch tail =>
    by_cases bar : ch = byte '_'
    · simp [scanClose, bar]
    · simp [scanClose, bar]

/-- Scanned digits are those of a read count, unless they spell a command start. -/
theorem countDigits_scanned {ds q : Text} (digits : ∀ d ∈ ds, d ∈ hexDigits) (nonempty : ds ≠ [])
    (short : ds.length ≤ 3) (notStart : startsCmd (byte 'h' :: (ds ++ q)) = false)
    (bound : numeral 16 ds ≤ 0x3FE) : CountDigits ds where
  digits := digits
  nonempty := List.length_pos_iff.mpr nonempty
  short := short
  notCtrl := by
    intro b member same
    match ds, digits with
    | [], _ => exact absurd rfl nonempty
    | [x], digits =>
      have small := (hexVal_digit x (digits x (by simp))).2
      have value : numeral 16 [x] = b.toNat := same
      rw [numeral_single] at value
      have large : ∀ b ∈ ctrlBytes, 16 ≤ b.toNat := by simp [ctrlBytes]
      have reached := large b member
      omega
    | x :: y :: more, digits =>
      have start := (ctrl_value (digits x (by simp)) (digits y (by simp)) (more ++ q)).mpr
        ⟨b, member, same⟩
      exact absurd start (by simpa using notStart)
  bound := bound

/-- Behind its digits a read names a format and is closed, which is a tail of the
grammar with a count. -/
theorem scanFmt_tail {ds q rest : Text} {fmt : NeoFmt} (count : CountDigits ds)
    (format : scanFmt (numeral 16 ds) q = .ok (fmt, byte '_' :: rest)) :
    Tail (byte 'h' :: (ds ++ q)) (numeral 16 ds, fmt) rest := by
  cases q with
  | nil =>
    simp only [scanFmt] at format
    split at format <;> simp at format
  | cons ff tail =>
    simp only [scanFmt] at format
    split at format
    · next selector =>
      cases format
      exact .count rest count (fmtOf_letter selector)
    · split at format
      · next zero =>
        cases format
        rw [zero]
        exact .zero rest count zero
      · simp at format

/-- What is scanned behind the `h` of a tail is derived, unless the `h` begins a
command. -/
theorem scanTailBody_sound (p rest : Text) (n : Nat) (fmt : NeoFmt)
    (notStart : startsCmd (byte 'h' :: p) = false)
    (scanned : scanTailBody p = .ok ((n, fmt), rest)) : Tail (byte 'h' :: p) (n, fmt) rest := by
  obtain ⟨ds, text, digits, length, value⟩ := scanCount_sound 3 0 p
  unfold scanTailBody at scanned
  generalize scanCount 3 0 p = counted at *
  obtain ⟨m, q⟩ := counted
  simp only [Nat.zero_mul, Nat.zero_add] at text value scanned
  split at scanned
  · simp at scanned
  · next consumed =>
    have nonempty : ds ≠ [] := by
      intro empty
      simp [text, empty] at consumed
    split at scanned
    · simp at scanned
    · next bound =>
      have count : CountDigits ds := countDigits_scanned digits nonempty length (text ▸ notStart)
        (value ▸ Nat.le_of_not_lt bound)
      split at scanned
      · simp at scanned
      · next f r format =>
        split at scanned
        · simp at scanned
        · next after closed =>
          simp only [Except.ok.injEq, Prod.mk.injEq] at scanned
          obtain ⟨⟨rfl, rfl⟩, rfl⟩ := scanned
          obtain rfl := scanClose_ok.mp closed
          rw [value] at format ⊢
          rw [text]
          exact scanFmt_tail count format

/-- Digits of a count, and a format behind them, are scanned as the tail they spell. -/
theorem scanTailBody_count {ds q : Text} (count : CountDigits ds) (r : Text)
    (stops : headIs isHex r = false) (fmt : NeoFmt)
    (format : scanFmt (numeral 16 ds) r = .ok (fmt, byte '_' :: q)) :
    scanTailBody (ds ++ r) = .ok ((numeral 16 ds, fmt), q) := by
  have counted := scanCount_complete 3 0 ds r count.digits count.short stops
  have some : r.length ≠ (ds ++ r).length := by
    have := count.nonempty
    rw [List.length_append]
    omega
  have bound : ¬ numeral 16 ds > readCountMax := Nat.not_lt.mpr count.bound
  unfold scanTailBody
  simp only [counted, Nat.zero_mul, Nat.zero_add, if_neg some, if_neg bound, format,
    scanClose_ok.mpr rfl]

/-- A scanned tail is derived behind the `_` in front of it. -/
theorem scanTail_sound (p rest : Text) (n : Nat) (fmt : NeoFmt)
    (scanned : scanTail p = .ok ((n, fmt), rest)) :
    ∃ q, Bars p q ∧ Tail q (n, fmt) rest := by
  refine ⟨skipBars p, bars_skip p, ?_⟩
  unfold scanTail at scanned
  split at scanned
  · next finished =>
    cases scanned
    rw [finished]
    exact .empty []
  · next ch tail behind =>
    rw [behind]
    split at scanned
    · cases scanned
      exact .empty _
    · next start =>
      split at scanned
      · next h =>
        subst h
        exact scanTailBody_sound tail rest n fmt (by simpa using start) scanned
      · simp at scanned

/-- The scan of an explicit tail, behind any `_`, is the scan of its body, as long as no
command starts there. -/
theorem scanTail_explicit {p q : Text} (bars : Bars p (byte 'h' :: q))
    (start : startsCmd (byte 'h' :: q) = false) : scanTail p = scanTailBody q := by
  have behind : skipBars p = byte 'h' :: q := by
    rw [skipBars_bars bars, skipBars_cons q (by simp)]
  simp [scanTail, behind, start]

/-- Leading `_` make no difference to the scan of a tail. -/
theorem scanTail_bars {p q : Text} (bars : Bars p q) : scanTail p = scanTail q := by
  unfold scanTail
  rw [skipBars_bars bars]

/-- A derived tail where a command may end is scanned as derived, with or without a
count and a format. -/
theorem scanTail_complete {p q r : Text} {v : Nat × NeoFmt} (bars : Bars p q)
    (derived : Tail q v r) (follow : Follow r) : ∃ rest, scanTail p = .ok (v, rest) ∧ Bars r rest := by
  cases derived with
  | empty =>
    have behind := skipBars_bars bars
    refine ⟨skipBars q, ?_, bars_skip q⟩
    unfold scanTail
    rw [behind]
    rcases follow with finished | start
    · rw [finished]
    · cases reached : skipBars q with
      | nil => rfl
      | cons ch rest =>
        rw [reached] at start
        simp only [start, if_true]
  | @count ds f fmt q count letter =>
    have selector : isSelector f = true := by cases letter <;> rfl
    have stops : headIs isHex (f :: byte '_' :: r) = false := by cases letter <;> rfl
    have named : fmtOf f = fmt := by cases letter <;> rfl
    rw [scanTail_explicit bars (count_notStart count stops)]
    refine ⟨r, scanTailBody_count count _ stops fmt ?_, .done r⟩
    simp [scanFmt, selector, named]
  | @zero ds q count zero =>
    have stops : headIs isHex (byte '_' :: r) = false := rfl
    rw [scanTail_explicit bars (count_notStart count stops)]
    refine ⟨r, ?_, .done r⟩
    have scanned := scanTailBody_count (q := r) count (byte '_' :: r) stops .none
      (by simp [scanFmt, isSelector, zero])
    rwa [zero] at scanned

/-! ## Commands -/

/-- Stores succeed exactly while both limits are kept. By induction on the bytes stored,
each of which counts for both. -/
theorem capacity_ok (len used : Nat) (items : List (UInt8 × Text)) (inside : len ≤ 1022)
    (room : used ≤ 2044) :
    capacity len used items = .ok () ↔ len + items.length ≤ 1022 ∧ used + items.length ≤ 2044 := by
  fun_induction capacity len used items with
  | case1 => simp [inside, room]
  | case2 len used b rest items full =>
    have full : 1022 ≤ len := full
    simp only [reduceCtorEq, List.length_cons, false_iff]
    omega
  | case3 len used b rest items free full =>
    have full : 2044 ≤ used := full
    simp only [reduceCtorEq, List.length_cons, false_iff]
    omega
  | case4 len used b rest items free more ih =>
    have free : ¬ 1022 ≤ len := free
    have more : ¬ 2044 ≤ used := more
    rw [ih (by omega) (by omega), List.length_cons]
    omega

/-- A group has as many bytes as places. -/
theorem bytes_length (g : Group) : g.items.length = g.bytes.length := by
  simp [Group.bytes]

/-- The test for a command start is the grammar's own: an `h`, an `A` and one of four
digits. -/
theorem startsCmd_iff (p : Text) : startsCmd p = true ↔ CmdStart p := by
  constructor
  · intro start
    match p with
    | [] => simp [startsCmd] at start
    | [_] => simp [startsCmd] at start
    | [_, _] => simp [startsCmd] at start
    | first :: second :: d :: rest =>
      simp only [startsCmd, Bool.and_eq_true, Bool.or_eq_true, beq_iff_eq] at start
      obtain ⟨⟨h, a⟩, digit⟩ := start
      refine ⟨d, ?_, rest, by rw [h, a]⟩
      simpa [ctrlDigits_codes, or_assoc] using digit
  · rintro ⟨d, member, rest, text⟩
    have digit : ((d = byte '0' ∨ d = byte '1') ∨ d = byte '2') ∨ d = byte '3' := by
      simpa [ctrlDigits_codes, or_assoc] using member
    simpa [text, startsCmd] using digit

/-- The control byte written by a command's first digits, and its direction, checked for
the four digits. -/
theorem scan_ctrl (d : UInt8) (member : d ∈ bytes "0123") (rest : Text) : ∃ ctrl,
    scanHexByte (byte 'A' :: d :: rest) = .ok (ctrl, rest) ∧
      ((isReadCtrl ctrl = true ∧ (d, ctrl) ∈ readCtrls) ∨
        (isReadCtrl ctrl = false ∧ (d, ctrl) ∈ writeCtrls)) := by
  simp only [ctrlDigits_codes, List.mem_cons, List.not_mem_nil, or_false] at member
  rcases member with zero | one | two | three
  · subst zero
    exact ⟨0xA0, rfl, Or.inr ⟨rfl, List.mem_cons_self⟩⟩
  · subst one
    exact ⟨0xA1, rfl, Or.inl ⟨rfl, List.mem_cons_self⟩⟩
  · subst two
    exact ⟨0xA2, rfl, Or.inr ⟨rfl, List.mem_cons_of_mem _ List.mem_cons_self⟩⟩
  · subst three
    exact ⟨0xA3, rfl, Or.inl ⟨rfl, List.mem_cons_of_mem _ List.mem_cons_self⟩⟩

/-- A pair of digits named as a control byte's is read as that byte. -/
theorem write_ctrl {d ctrl : UInt8} (named : (d, ctrl) ∈ writeCtrls) (rest : Text) :
    d ∈ bytes "0123" ∧ scanHexByte (byte 'A' :: d :: rest) = .ok (ctrl, rest) ∧
      isReadCtrl ctrl = false := by
  simp only [writeCtrls, List.mem_cons, Prod.mk.injEq, List.not_mem_nil, or_false] at named
  rw [ctrlDigits_codes]
  rcases named with ⟨zero, made⟩ | ⟨two, made⟩
  · subst zero made
    exact ⟨by simp, rfl, rfl⟩
  · subst two made
    exact ⟨by simp, rfl, rfl⟩

/-- A pair of digits named as a read's control byte is read as that byte. -/
theorem read_ctrl {d ctrl : UInt8} (named : (d, ctrl) ∈ readCtrls) (rest : Text) :
    d ∈ bytes "0123" ∧ scanHexByte (byte 'A' :: d :: rest) = .ok (ctrl, rest) ∧
      isReadCtrl ctrl = true := by
  simp only [readCtrls, List.mem_cons, Prod.mk.injEq, List.not_mem_nil, or_false] at named
  rw [ctrlDigits_codes]
  rcases named with ⟨one, made⟩ | ⟨three, made⟩
  · subst one made
    exact ⟨by simp, rfl, rfl⟩
  · subst three made
    exact ⟨by simp, rfl, rfl⟩

/-- A derivation of a payload may begin with any `_`. By induction on them. -/
theorem payload_bars {p q r : Text} {bs : List UInt8} (bars : Bars p q)
    (derived : Payload q bs r) : Payload p bs r := by
  induction bars with
  | done p => exact derived
  | bar bars ih => exact .bar (ih derived)

/-- A command behind `count` others that hold `used` payload bytes is scanned as
derived, and keeps the limits. -/
theorem scanCmd_sound (count used : Nat) (p rest : Text) (c : TwiCmd) (room : used ≤ 2044)
    (scanned : scanCmd count used p = .ok (c, rest)) :
    Cmd p c rest ∧ count < 160 ∧ c.payload.length ≤ 1022 ∧ used + c.payload.length ≤ 2044 := by
  unfold scanCmd at scanned
  split at scanned
  · simp at scanned
  · next free =>
    have free : count < 160 := Nat.lt_of_not_le free
    split at scanned
    · simp at scanned
    · next start =>
      obtain ⟨d, member, q, rfl⟩ := (startsCmd_iff p).mp (by simpa using start)
      obtain ⟨ctrl, first, direction⟩ := scan_ctrl d member q
      rw [List.drop_one, List.tail_cons] at scanned
      unfold scanCmdBody at scanned
      simp only [first] at scanned
      split at scanned
      · simp at scanned
      · next addr r second =>
        obtain ⟨s, derived, bars⟩ := scanAddr_sound q r addr second
        rcases direction with ⟨isRead, named⟩ | ⟨isWrite, named⟩
        · simp only [isRead, if_true] at scanned
          split at scanned
          · simp at scanned
          · next len fmt after third =>
            simp only [Except.ok.injEq, Prod.mk.injEq] at scanned
            obtain ⟨rfl, rfl⟩ := scanned
            obtain ⟨t, moreBars, tail⟩ := scanTail_sound r after len fmt third
            exact ⟨.read named derived (bars_trans bars moreBars) tail, free, Nat.zero_le _, room⟩
        · simp only [isWrite, Bool.false_eq_true, if_false] at scanned
          split at scanned
          · simp at scanned
          · next fits =>
            split at scanned
            · simp at scanned
            · next after third =>
              simp only [Except.ok.injEq, Prod.mk.injEq] at scanned
              obtain ⟨rfl, rfl⟩ := scanned
              have payload := payload_bars bars (scanPayload_sound r after third)
              have limits := (capacity_ok 0 used _ (Nat.zero_le _) room).mp fits
              rw [Nat.zero_add, bytes_length] at limits
              exact ⟨.write named derived payload, free, limits.1, limits.2⟩

/-- A command begins like one. -/
theorem cmd_start {p rest : Text} {c : TwiCmd} (derived : Cmd p c rest) : startsCmd p = true := by
  rw [startsCmd_iff]
  cases derived with
  | @write d ctrl addr p q r bs named iaddr payload =>
    exact ⟨d, (write_ctrl named p).1, p, rfl⟩
  | @read d ctrl addr p q r s n fmt named iaddr bars tail =>
    exact ⟨d, (read_ctrl named p).1, p, rfl⟩

/-- A derived command where another may follow is scanned as derived, if the record has
room for it. -/
theorem scanCmd_complete (count used : Nat) {p q : Text} {c : TwiCmd} (derived : Cmd p c q)
    (follow : Follow q) (free : count < 160) (short : c.payload.length ≤ 1022)
    (room : used + c.payload.length ≤ 2044) :
    ∃ rest, scanCmd count used p = .ok (c, rest) ∧ Bars q rest := by
  have free : ¬ count ≥ neoParserMaxCmds := Nat.not_le.mpr free
  have start := cmd_start derived
  simp only [scanCmd, if_neg free, start, Bool.not_true, Bool.false_eq_true, if_false]
  cases derived with
  | @write d ctrl addr p q r bs named iaddr payload =>
    have first := (write_ctrl named p).2
    obtain ⟨s, second, bars⟩ := scanAddr_complete iaddr
    obtain ⟨bytes, third⟩ := scanPayload_complete payload follow
    rw [scanPayload_bars bars] at bytes third
    have fits : capacity 0 used (scanPayload s).items = .ok () := by
      have used_ : used ≤ 2044 := Nat.le_trans (Nat.le_add_right _ _) room
      rw [capacity_ok 0 used _ (Nat.zero_le _) used_, bytes_length, bytes, Nat.zero_add]
      exact ⟨short, room⟩
    refine ⟨skipBars _, ?_, bars_skip _⟩
    simp only [List.drop_one, List.tail_cons, scanCmdBody, first.1, second, first.2,
      Bool.false_eq_true, if_false, fits, third, bytes]
  | @read d ctrl addr p q r s n fmt named iaddr bars tail =>
    have first := (read_ctrl named p).2
    obtain ⟨t, second, moreBars⟩ := scanAddr_complete iaddr
    obtain ⟨rest, third, behind⟩ := scanTail_complete bars tail follow
    rw [scanTail_bars moreBars] at third
    refine ⟨rest, ?_, behind⟩
    simp only [List.drop_one, List.tail_cons, scanCmdBody, first.1, second, first.2, if_true,
      third]

/-! ## Chains -/

/-- Leading `_` make no difference to the scan of a chain. -/
theorem scanChain_bars (count used : Nat) {p q : Text} (bars : Bars p q) :
    scanChain count used p = scanChain count used q := by
  rw [scanChain, scanChain, skipBars_bars bars]

/-- In front of a command there is no `_` to skip. -/
theorem startsCmd_skip {p : Text} (start : startsCmd p = true) : skipBars p = p := by
  cases p with
  | nil => rfl
  | cons ch rest =>
    rw [startsCmd_selector start]
    exact skipBars_cons rest (by simp)

/-- The scan of a chain whose first command is known goes on behind it, with one command
and its payload counted. -/
theorem scanChain_cmd (count used : Nat) {p q : Text} {c : TwiCmd} (start : startsCmd p = true)
    (scanned : scanCmd count used p = .ok (c, q)) :
    scanChain count used p =
      (c :: (scanChain (count + 1) (used + c.payload.length) q).1,
        (scanChain (count + 1) (used + c.payload.length) q).2) := by
  have behind := startsCmd_skip start
  cases p with
  | nil => simp [startsCmd] at start
  | cons ch rest => rw [scanChain_step count used behind, if_pos start, scanned]

/-- A chain that is scanned to its end begins with a command that is. -/
theorem scanChain_first {count used : Nat} {p : Text} {ds : List TwiCmd} (start : startsCmd p = true)
    (scanned : scanChain count used p = (ds, none)) :
    ∃ c q rest, scanCmd count used p = .ok (c, q) ∧ ds = c :: rest ∧
      scanChain (count + 1) (used + c.payload.length) q = (rest, none) := by
  cases read : scanCmd count used p with
  | error stopped =>
    cases p with
    | nil => simp [startsCmd] at start
    | cons ch p =>
      rw [scanChain_step _ _ (startsCmd_skip start), if_pos start, read] at scanned
      simp at scanned
  | ok result =>
    obtain ⟨c, q⟩ := result
    rw [scanChain_cmd _ _ start read] at scanned
    obtain ⟨rfl, ended⟩ := Prod.mk.inj scanned
    exact ⟨c, q, _, rfl, rfl, Prod.ext rfl ended⟩

/-- In front of further commands a command may end, because either one starts there or
nothing is left. -/
theorem cmds_follow {p q : Text} {cs : List TwiCmd} (derived : Cmds p cs q) (follow : Follow q) :
    Follow p := by
  cases derived with
  | done => exact follow
  | cmd bars first others =>
    have start := cmd_start first
    refine Or.inr ?_
    rw [skipBars_bars bars, startsCmd_skip start]
    exact start

/-- Behind derived commands the scan goes on as it would there. By induction on the
commands, with room counted for each. -/
theorem scanChain_cmds {p q : Text} {cs : List TwiCmd} (derived : Cmds p cs q) (follow : Follow q)
    (count used : Nat) (fits : Fits count used cs) :
    scanChain count used p =
      (cs ++ (scanChain (count + cs.length) (used + payloadTotal cs) q).1,
        (scanChain (count + cs.length) (used + payloadTotal cs) q).2) := by
  induction derived generalizing count used with
  | done p => simp
  | @cmd p q r s c cs bars first others ih =>
    have limits := fits.count
    have total := fits.total
    obtain ⟨short, shorter⟩ := List.forall_mem_cons.mp fits.each
    simp only [List.length_cons, payloadTotal_cons] at limits total
    obtain ⟨rest, scanned, behind⟩ := scanCmd_complete count used first (cmds_follow others follow)
      (by omega) short (by omega)
    have inner : Fits (count + 1) (used + c.payload.length) cs :=
      { count := by omega, each := shorter, total := by omega }
    rw [scanChain_bars count used bars, scanChain_cmd count used (cmd_start first) scanned,
      ← scanChain_bars _ _ behind, ih follow _ _ inner]
    simp only [List.cons_append, List.length_cons, payloadTotal_cons, Nat.add_assoc,
      Nat.add_comm 1 cs.length]

/-- A chain that is scanned to its end is derived, and fits the limits. By induction
along the scan, one command at a time. -/
theorem scanChain_sound (count used : Nat) (p : Text) (cs : List TwiCmd) (inside : count ≤ 160)
    (room : used ≤ 2044) (scanned : scanChain count used p = (cs, none)) :
    ∃ q, Cmds p cs q ∧ Bars q [] ∧ Fits count used cs := by
  fun_induction scanChain count used p generalizing cs with
  | case1 count used p behind =>
    cases scanned
    exact ⟨p, .done p, behind ▸ bars_skip p, ⟨inside, by simp, room⟩⟩
  | case2 count used p ch rest behind start s failed => simp at scanned
  | case3 count used p ch rest behind start cmd q read more ih =>
    obtain ⟨rfl, ended⟩ := Prod.mk.inj scanned
    obtain ⟨derived, free, short, total⟩ := scanCmd_sound count used _ q cmd room read
    obtain ⟨r, others, bars, fits⟩ := ih more.1 free total (Prod.ext rfl ended)
    refine ⟨r, .cmd (behind ▸ bars_skip p) derived others, bars, ?_⟩
    have limits := fits.count
    have sum := fits.total
    refine
      { count := ?_
        each := List.forall_mem_cons.mpr ⟨short, fits.each⟩
        total := ?_ }
    · rw [List.length_cons]
      omega
    · rw [payloadTotal_cons]
      omega
  | case4 count used p ch rest behind start => simp at scanned

/-- A line that begins like a command is accepted as a chain if and only if the
grammar derives a chain for which there is room. -/
theorem scanChain_exact (p : Text) (start : startsCmd p = true) (cs : List TwiCmd) :
    scanChain 0 0 p = (cs, none) ↔ Chain p cs ∧ Fits 0 0 cs := by
  constructor
  · intro scanned
    obtain ⟨q, derived, bars, fits⟩ :=
      scanChain_sound 0 0 p cs (Nat.zero_le _) (Nat.zero_le _) scanned
    refine ⟨?_, fits⟩
    cases derived with
    | done =>
      have finished := skipBars_bars bars
      rw [startsCmd_skip start] at finished
      simp [finished, skipBars, startsCmd] at start
    | cmd skipped first others =>
      have same := skipBars_bars skipped
      rw [startsCmd_skip start, startsCmd_skip (cmd_start first)] at same
      subst same
      exact .line first others bars
  · rintro ⟨derived, fits⟩
    cases derived with
    | line first others bars =>
      have finished := skipBars_bars bars
      rw [scanChain_cmds (.cmd (.done _) first others) (Or.inl finished) 0 0 fits,
        scanChain_end _ _ finished]
      simp

end NeoSfp
