import NeoSfp.GrammarExact

/-!
# Whole lines

Special commands and chains together: the line scanner accepts what the grammar
derives.
-/

namespace NeoSfp

/-! ## Special commands -/

/-- The prefix test returns what stands behind the prefix. By induction on both
texts. -/
theorem strPrefix_eq {p wanted q : Text} : strPrefix p wanted = some q ↔ p = wanted ++ q := by
  fun_induction strPrefix p wanted with
  | case1 p => simp
  | case2 want wanted => simp
  | case3 ch p want wanted other => simp [other]
  | case4 ch p want wanted same ih =>
    obtain rfl : ch = want := not_not.mp same
    rw [ih, List.cons_append, List.cons_inj_right]

/-- Skipping blanks leaves nothing exactly if there is nothing else. -/
theorem skipBlanks_nil (p : Text) : skipBlanks p = [] ↔ Blanks p := by
  fun_induction skipBlanks p with
  | case1 => simp [Blanks]
  | case2 ch rest blank ih =>
    have same : ch = byte ' ' ∨ ch = byte '\t' := by simpa [isBlank] using blank
    simp [ih, Blanks, same]
  | case3 ch rest other =>
    have same : ¬ (ch = byte ' ' ∨ ch = byte '\t') := by simpa [isBlank] using other
    simp [Blanks, same]

/-- The test for an empty tail accepts exactly blanks and tabs. -/
theorem strtailEmpty_iff (p : Text) : strtailEmpty p = true ↔ Blanks p := by
  rw [strtailEmpty, List.isEmpty_iff, skipBlanks_nil]

/-- The scan of the port's bits reads as many digits as are left and the number they
write. By induction on how many are left, with the value so far in front. -/
theorem scanOutBits_exact (left : Nat) (v : UInt8) (p : Text) (value : UInt8) (rest : Text) :
    scanOutBits left v p = .ok (value, rest) ↔
      ∃ ds, p = ds ++ rest ∧ ds.length = left ∧ (∀ d ∈ ds, d ∈ binDigits) ∧
        value = UInt8.ofNat (v.toNat * 2 ^ left + numeral 2 ds) := by
  fun_induction scanOutBits left v p with
  | case1 v p =>
    constructor
    · intro scanned
      cases scanned
      exact ⟨[], rfl, rfl, by simp, by simp⟩
    · rintro ⟨ds, text, length, digits, result⟩
      obtain rfl := List.length_eq_zero_iff.mp length
      simp [text, result]
  | case2 left v =>
    constructor
    · intro scanned
      simp at scanned
    · rintro ⟨ds, text, length, digits, result⟩
      obtain ⟨rfl, -⟩ := List.append_eq_nil_iff.mp text.symm
      simp at length
  | case3 left v ch tail bit ih =>
    have digit := (isBin_iff ch).mp bit
    rw [ih]
    constructor
    · rintro ⟨ds, rfl, length, digits, result⟩
      refine ⟨ch :: ds, rfl, congrArg (· + 1) length, ?_, ?_⟩
      · exact List.forall_mem_cons.mpr ⟨digit, digits⟩
      · rw [result, bits_value left v ch ds digit length]
    · rintro ⟨ds, text, length, digits, result⟩
      cases ds with
      | nil => simp at length
      | cons d ds =>
        obtain ⟨rfl, rfl⟩ := List.cons.inj text
        have shorter : ds.length = left := Nat.succ.inj length
        refine ⟨ds, rfl, shorter, (List.forall_mem_cons.mp digits).2, ?_⟩
        rw [result, bits_value left v ch ds digit shorter]
  | case4 left v ch tail other =>
    constructor
    · intro scanned
      simp at scanned
    · rintro ⟨ds, text, length, digits, result⟩
      cases ds with
      | nil => simp at length
      | cons d ds =>
        obtain ⟨rfl, rfl⟩ := List.cons.inj text
        exact absurd ((isBin_iff ch).mpr (digits ch (by simp))) other

/-- The keyword test with its trailing blanks accepts exactly the keyword followed by
blanks. -/
theorem keyword_iff (p : Text) (word : String) :
    (strPrefix p (bytes word)).any strtailEmpty = true ↔
      ∃ tail, p = bytes word ++ tail ∧ Blanks tail := by
  rw [Option.any_eq_true]
  simp only [strPrefix_eq, strtailEmpty_iff]

/-- The test for the question mark is the test for a keyword of one character. -/
theorem mark_iff (p : Text) :
    (headIs (· == '?') p = true ∧ strtailEmpty (p.drop 1) = true) ↔
      ∃ tail, p = bytes "?" ++ tail ∧ Blanks tail := by
  have word : bytes "?" = [byte '?'] := rfl
  cases p with
  | nil => simp [headIs, word]
  | cons ch rest => simp [headIs, strtailEmpty_iff, word, and_comm]

/-- The keyword as characters of the source. -/
theorem bytes_out : bytes "out_" = [byte 'o', byte 'u', byte 't', byte '_'] := rfl

/-- The keyword as characters of the source. -/
theorem bytes_inp : bytes "inp" = [byte 'i', byte 'n', byte 'p'] := rfl

/-- The keyword as characters of the source. -/
theorem bytes_help : bytes "help" = [byte 'h', byte 'e', byte 'l', byte 'p'] := rfl

/-- The keyword as a character of the source. -/
theorem bytes_mark : bytes "?" = [byte '?'] := rfl

/-- Behind `out_` the line is eight bits and blanks, and no other special command begins
so. -/
theorem scanSpecial_out (q : Text) (entry : NeoCmd) :
    scanSpecial (bytes "out_" ++ q) = .ok entry ↔ SpecialLine (bytes "out_" ++ q) entry := by
  rw [scanSpecial, strPrefix_eq.mpr rfl]
  simp only
  constructor
  · intro scanned
    split at scanned
    · simp at scanned
    · next v rest digits =>
      obtain ⟨ds, rfl, length, all, rfl⟩ := (scanOutBits_exact 8 0 q v rest).mp digits
      split at scanned
      · next closed =>
        cases scanned
        rw [← List.append_assoc]
        simpa using SpecialLine.out length all ((strtailEmpty_iff rest).mp closed)
      · simp at scanned
  · intro derived
    generalize text : bytes "out_" ++ q = p at derived
    cases derived with
    | @out ds tail length all blanks =>
      rw [List.append_assoc, List.append_cancel_left_eq] at text
      have digits := (scanOutBits_exact 8 0 q _ tail).mpr ⟨ds, text, length, all, rfl⟩
      simp [digits, (strtailEmpty_iff tail).mpr blanks]
    | inp => simp [bytes_out, bytes_inp] at text
    | help => simp [bytes_out, bytes_help] at text
    | mark => simp [bytes_out, bytes_mark] at text

/-- A keyword that begins with another letter is not `inp`, whatever stands behind
it. -/
theorem not_inp (tail : Text) (word : String) (first : (bytes word ++ tail).head? ≠ some (byte 'i')) :
    ¬ (strPrefix (bytes word ++ tail) (bytes "inp")).any strtailEmpty = true := by
  intro keyword
  obtain ⟨rest, text, -⟩ := (keyword_iff _ "inp").mp keyword
  rw [text, bytes_inp] at first
  exact first rfl

/-- Any other line is a keyword and blanks, and the keywords are tried in the order of
the source. -/
theorem scanSpecial_words (p : Text) (entry : NeoCmd) (other : strPrefix p (bytes "out_") = none) :
    scanSpecial p = .ok entry ↔ SpecialLine p entry := by
  unfold scanSpecial
  rw [other]
  constructor
  · intro scanned
    simp only at scanned
    split at scanned
    · next keyword =>
      obtain ⟨tail, rfl, blanks⟩ := (keyword_iff p "inp").mp keyword
      cases scanned
      exact .inp blanks
    · split at scanned
      · next help =>
        cases scanned
        rcases help with keyword | mark
        · obtain ⟨tail, rfl, blanks⟩ := (keyword_iff p "help").mp keyword
          exact .help blanks
        · obtain ⟨tail, rfl, blanks⟩ := (mark_iff p).mp mark
          exact .mark blanks
      · simp at scanned
  · intro derived
    cases derived with
    | @out ds tail length all blanks =>
      rw [List.append_assoc, strPrefix_eq.mpr rfl] at other
      simp at other
    | @inp tail blanks =>
      simp only [if_pos ((keyword_iff _ "inp").mpr ⟨tail, rfl, blanks⟩)]
    | @help tail blanks =>
      have keyword := (keyword_iff _ "help").mpr ⟨tail, rfl, blanks⟩
      have first := not_inp tail "help" (by simp [bytes_help])
      simp only [if_neg first, keyword, true_or, if_true]
    | @mark tail blanks =>
      have mark := (mark_iff _).mpr ⟨tail, rfl, blanks⟩
      have first := not_inp tail "?" (by simp [bytes_mark])
      simp only [if_neg first, mark, or_true, if_true, and_self]

/-- The special commands differ in their first characters, so the order in which
they are tried does not matter. -/
theorem scanSpecial_exact (p : Text) (entry : NeoCmd) :
    scanSpecial p = .ok entry ↔ SpecialLine p entry := by
  cases asOut : strPrefix p (bytes "out_") with
  | some q =>
    rw [strPrefix_eq.mp asOut]
    exact scanSpecial_out q entry
  | none => exact scanSpecial_words p entry asOut

/-- No special command begins like a TWI command, so the order in which the two are
tried does not matter. -/
theorem special_notStart {p : Text} {entry : NeoCmd} (derived : SpecialLine p entry) :
    startsCmd p = false := by
  cases derived with
  | out =>
    rw [bytes_out]
    exact startsCmd_other _ (by simp)
  | inp =>
    rw [bytes_inp]
    exact startsCmd_other _ (by simp)
  | help =>
    rw [bytes_help]
    rfl
  | mark =>
    rw [bytes_mark]
    exact startsCmd_other _ (by simp)

/-! ## Lines -/

/-- The meaning of a line, by the grammar. -/
inductive Line : Text → Parsed → Prop
  | chain {p : Text} {cs : List TwiCmd} : Chain p cs → Fits 0 0 cs → Line p (.chain cs)
  | special {p : Text} {entry : NeoCmd} : SpecialLine p entry → Line p (.special entry)

/-- A chain begins like a command, as its first command does. -/
theorem chain_start {p : Text} {cs : List TwiCmd} (derived : Chain p cs) :
    startsCmd p = true := by
  cases derived with
  | line first others bars => exact cmd_start first

/-- A chain has a command. -/
theorem chain_nonempty {p : Text} {cs : List TwiCmd} (derived : Chain p cs) : cs ≠ [] := by
  cases derived with
  | line first others bars => exact List.cons_ne_nil _ _

/-- A line is accepted with the meaning the grammar gives it, as a special command or as
a chain, which begin differently. -/
theorem scanLine_exact (p : Text) (parsed : Parsed) :
    scanLine p = .ok parsed ↔ Line p parsed := by
  unfold scanLine
  by_cases empty : p = []
  · subst empty
    simp only [if_true, reduceCtorEq, false_iff]
    intro derived
    cases derived with
    | chain derived fits => exact absurd (chain_start derived) (by simp [startsCmd])
    | special derived =>
      generalize text : ([] : Text) = q at derived
      cases derived <;> simp [bytes_out, bytes_inp, bytes_help, bytes_mark] at text
  · rw [if_neg empty]
    by_cases start : startsCmd p = true
    · rw [if_pos start]
      constructor
      · intro scanned
        split at scanned
        · next cs chain =>
          cases scanned
          obtain ⟨derived, fits⟩ := (scanChain_exact p start cs).mp chain
          exact .chain derived fits
        · simp at scanned
      · intro derived
        cases derived with
        | @chain cs derived fits =>
          rw [(scanChain_exact p start cs).mpr ⟨derived, fits⟩]
        | special derived => simp [special_notStart derived] at start
    · rw [if_neg start]
      constructor
      · intro scanned
        split at scanned
        · next entry special =>
          cases scanned
          exact .special ((scanSpecial_exact p entry).mp special)
        · simp at scanned
      · intro derived
        cases derived with
        | chain derived fits => exact absurd (chain_start derived) start
        | @special entry derived => rw [(scanSpecial_exact p entry).mpr derived]

example : scanLine (bytes "inp ") = .ok (.special { kind := .gpioIn }) := by decide

/-- The grammar is unambiguous: a line has one meaning at most, because the scanner
computes it. -/
theorem line_unique {p : Text} {parsed other : Parsed} (first : Line p parsed)
    (second : Line p other) : parsed = other := by
  have scanned := (scanLine_exact p parsed).mpr first
  rw [(scanLine_exact p other).mpr second] at scanned
  cases scanned
  rfl

/-- A line whose scan stops has no meaning. -/
theorem line_stopped {p : Text} {stopped : List TwiCmd × Stop} (scanned : scanLine p = .error stopped)
    (parsed : Parsed) : ¬ Line p parsed := by
  intro derived
  rw [(scanLine_exact p parsed).mpr derived] at scanned
  cases scanned

end NeoSfp
