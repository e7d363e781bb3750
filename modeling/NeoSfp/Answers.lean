import NeoSfp.Submissions
import NeoSfp.Overfull
import NeoSfp.PlainText

/-!
# What the shell prints

Whatever the devices answer, the shell prints printable characters, newlines and what
the user typed, and the UART adds nothing but a CR in front of each newline. And an
answer can be understood by a program that reads it: it says whether the line was
rejected, and if so where and why.
-/

namespace NeoSfp

/-! ## Characters -/

/-- Printable, or a newline. -/
def Shown (ch : UInt8) : Prop := Printable ch ∨ ch = byte '\n'

instance shownDecidable (ch : UInt8) : Decidable (Shown ch) := inferInstanceAs (Decidable (_ ∨ _))

/-- Every character may be shown. -/
def AllShown (text : List UInt8) : Prop := ∀ ch ∈ text, Shown ch

/-- Nothing printed is printable. -/
theorem shown_nil : AllShown [] := by simp [AllShown]

/-- Two texts that may be shown may be shown one after the other. -/
theorem shown_append {front back : List UInt8} (first : AllShown front) (second : AllShown back) :
    AllShown (front ++ back) := List.forall_mem_append.mpr ⟨first, second⟩

/-- Printable characters may be shown; only the newline comes in addition. -/
theorem shown_printable {text : List UInt8} (printable : ∀ ch ∈ text, Printable ch) : AllShown text :=
  fun ch member => Or.inl (printable ch member)

/-- The newline may be shown on its own. -/
theorem shown_newline : AllShown [byte '\n'] := by simp [AllShown, Shown]

/-- A literal of such characters only. -/
def PlainLiteral (text : String) : Prop :=
  text.toList.all (fun c => (0x20 ≤ c.toNat && c.toNat < 0x7F) || c == '\n') = true

/-- Literals joined are a plain literal if both parts are, since their bytes are joined
in order. -/
theorem literal_append {a b : String} (first : PlainLiteral a) (second : PlainLiteral b) :
    PlainLiteral (a ++ b) := by
  unfold PlainLiteral at *
  rw [String.toList_append, List.all_append, first, second]
  rfl

/-- A plain literal may be shown: each of its bytes is printable or a newline. -/
theorem literal_shown {text : String} (plain : PlainLiteral text) : AllShown (bytes text) := by
  intro ch member
  obtain ⟨c, inside, rfl⟩ := List.mem_map.mp member
  have fine := List.all_eq_true.mp plain c inside
  simp only [Bool.or_eq_true, Bool.and_eq_true, decide_eq_true_eq, beq_iff_eq] at fine
  rcases fine with ⟨low, high⟩ | newline
  · left
    have code : (byte c).toNat = c.toNat := by
      rw [byte, UInt8.toNat_ofNat', Nat.mod_eq_of_lt (by omega)]
    rw [Printable, UInt8.le_iff_toNat_le, UInt8.lt_iff_toNat_lt, code]
    exact ⟨low, high⟩
  · right
    rw [newline]

/-- The help text holds printable characters and newlines only. -/
theorem help_plain : PlainLiteral helpText := by
  unfold helpText
  refine literal_append (literal_append (literal_append (literal_append (literal_append
    (literal_append (literal_append (literal_append (literal_append ?_ ?_) ?_) ?_) ?_) ?_) ?_) ?_)
    ?_) ?_
  all_goals rfl

/-- Every message of the parser is plain. There is one case for each message. -/
theorem msg_plain (msg : Msg) : PlainLiteral msg.text := by
  cases msg <;> rfl

/-- A digit of any base up to sixteen is printable, in lower and in upper case. -/
theorem digitChar_printable : ∀ upper, ∀ digit < 16, Printable (digitChar upper digit) := by decide

/-- A number is printed with printable characters: its digits, and a minus in front of
them if it is negative. -/
theorem signedChars_printable (v : Int) : ∀ ch ∈ signedChars v, Printable ch := by
  have number : ∀ ch ∈ numberChars v.natAbs 10 false, Printable ch := by
    intro ch member
    unfold numberChars at member
    split at member
    · rw [List.mem_singleton.mp member]
      decide
    · obtain ⟨digit, inside, rfl⟩ := List.mem_map.mp member
      have small : digit < 10 := Nat.digits_lt_base (by decide) (List.mem_reverse.mp inside)
      exact digitChar_printable false digit (by omega)
  unfold signedChars
  split
  · exact List.forall_mem_cons.mpr ⟨by decide, number⟩
  · exact number

/-! ## Answers -/

/-- The text of a message, as it is given to the formatter, may be shown. -/
theorem messageText_shown (msg : Msg) : AllShown (messageText msg).chars := by
  intro ch member
  exact literal_shown (msg_plain msg) ch ((List.takeWhile_prefix _).subset member)

/-- The answer to a line with a special word may be shown: each of them prints literals
and numbers. -/
theorem specialReport_shown (hal : Hal) (h : List HalCall) (entry : NeoCmd) :
    AllShown (specialReport hal h entry) := by
  have written : PlainLiteral "gpio <= " := rfl
  have read : PlainLiteral "gpio => " := rfl
  have bits (b : UInt8) := shown_printable (bitsText_printable b 8)
  unfold specialReport
  split
  · exact shown_append (shown_append (literal_shown written) (bits _)) shown_newline
  · exact shown_append (shown_append (literal_shown read) (bits _)) shown_newline
  · exact literal_shown help_plain

/-- The report of executed commands may be shown. By induction on the commands: each
prints bytes in its format, with the marks of the acknowledges, and a newline. -/
theorem chainReport_shown (hal : Hal) (h : List HalCall) (cs : List TwiCmd) :
    AllShown (chainReport hal h cs) := by
  rw [chainReport_lines]
  intro ch member
  obtain ⟨line, inside, found⟩ := List.mem_flatMap.mp member
  exact shown_append (shown_printable (chainLines_printable hal h cs line inside)) shown_newline ch found

/-- The answer to a line may be shown, whether the line is accepted or rejected. -/
theorem textReport_shown (hal : Hal) (h : List HalCall) (text : CString) :
    AllShown (textReport hal h text) := by
  have offset : PlainLiteral "ERROR at offset " := rfl
  have colon : PlainLiteral ": " := rfl
  unfold textReport
  cases scanLine (skipBlanks text.chars) with
  | ok parsed =>
    cases parsed with
    | chain cs => exact chainReport_shown hal h cs
    | special entry => exact specialReport_shown hal h entry
  | error stopped =>
    exact shown_append (shown_append (shown_append (shown_append (literal_shown offset)
      (shown_printable (signedChars_printable _))) (literal_shown colon)) (messageText_shown _))
      shown_newline

/-! ## Whole dialogues -/

/-- What may be given to `neo_putc` while these characters are typed. On the wire a CR
comes in front of each newline (`uartSent`). -/
def Displayable (input : List UInt8) (ch : UInt8) : Prop :=
  Shown ch ∨ ch = 0x08 ∨ (ch ∈ input ∧ endsLine ch = false ∧ erases ch = false)

/-- The dialogue has printed nothing else behind what was there before. -/
def PrintsOnly (before input : List UInt8) (s : Dialogue) : Prop :=
  ∃ printed, s.output = before ++ printed ∧ ∀ ch ∈ printed, Displayable input ch

section

variable {before input : List UInt8} {s : Dialogue}

/-- Displayable characters behind a dialogue that prints only such leave one that
does. -/
theorem prints_put (prior : PrintsOnly before input s) {chars : List UInt8}
    (fine : ∀ ch ∈ chars, Displayable input ch) : PrintsOnly before input (s.put chars) := by
  obtain ⟨printed, output, only⟩ := prior
  refine ⟨printed ++ chars, ?_, List.forall_mem_append.mpr ⟨only, fine⟩⟩
  rw [Dialogue.put, output, List.append_assoc]

/-- The prompt may be shown. -/
theorem prompt_shown : AllShown (bytes "> ") := literal_shown (show PlainLiteral "> " from rfl)

/-- A line that is submitted adds its newline, its answer and the next prompt, all of
which may be shown. -/
theorem prints_submit (hal : Hal) (prior : PrintsOnly before input s) :
    PrintsOnly before input (s.submit hal) := by
  unfold Dialogue.submit
  split_ifs
  · exact prints_put prior fun ch member => Or.inl (prompt_shown ch member)
  · have answer := shown_append (textReport_shown hal s.calls (CString.ofBuffer s.held)) prompt_shown
    exact prints_put prior fun ch member => Or.inl (answer ch member)

/-- A character that continues the line adds its echo: the character itself, which is
typed, or the erasure of the last one. -/
theorem prints_edit (prior : PrintsOnly before input s) {c : UInt8} (typed : c ∈ input)
    (continues : endsLine c = false) : PrintsOnly before input (s.edit c) := by
  unfold Dialogue.edit
  split_ifs with drops empty
  · exact prior
  · apply prints_put prior
    intro ch member
    simp only [List.mem_cons, List.not_mem_nil, or_false] at member
    rcases member with rfl | rfl | rfl
    · exact Or.inr (Or.inl rfl)
    · exact Or.inl (by decide)
    · exact Or.inr (Or.inl rfl)
  · apply prints_put prior
    intro ch member
    rw [List.mem_singleton.mp member]
    exact Or.inr (Or.inr ⟨typed, continues, by simpa using drops⟩)

/-- A character typed either submits the line or edits it, and in both cases prints only
what may be displayed. -/
theorem prints_take (hal : Hal) (prior : PrintsOnly before input s) {c : UInt8} (typed : c ∈ input) :
    PrintsOnly before input (s.take hal c) := by
  unfold Dialogue.take
  cases ends : endsLine c with
  | true =>
    rw [if_pos rfl]
    exact prints_submit hal (prints_put prior fun ch member => Or.inl (shown_newline ch member))
  | false =>
    have edited := prints_edit prior typed ends
    rw [if_neg Bool.false_ne_true]
    split_ifs
    · exact prints_submit hal edited
    · exact edited

/-- Characters typed one after another print only what may be displayed. By induction on
them. -/
theorem prints_takes (hal : Hal) (prior : PrintsOnly before input s) (typed : List UInt8)
    (part : typed ⊆ input) : PrintsOnly before input (s.takes hal typed) := by
  induction typed generalizing s with
  | nil => exact prior
  | cons c typed ih =>
    obtain ⟨first, others⟩ := List.cons_subset.mp part
    exact ih (prints_take hal prior first) others

end

/-- The greeting and its notices about missing units may be shown, whichever units the
system has. -/
theorem greeting_shown (twiAvailable gpioAvailable : Bool) :
    AllShown (greeting twiAvailable gpioAvailable) := by
  have twi : PlainLiteral "WARNING: TWI controller not available\n" := rfl
  have gpio : PlainLiteral "WARNING: GPIO controller not available\n" := rfl
  have ready : PlainLiteral "\nNEO shell ready.  Type 'help' or '?' for commands.\n" := rfl
  unfold greeting
  refine shown_append (shown_append ?_ ?_) (literal_shown ready)
  · split
    · exact shown_nil
    · exact literal_shown twi
  · split
    · exact shown_nil
    · exact literal_shown gpio

/-! ## On the wire -/

/-- Every byte that the UART sends was given to `neo_putc`, or is the CR that goes in
front of a newline; and no newline goes without it. By induction on what was given: a
newline contributes two bytes, which the cut leaves apart or together. -/
theorem uartSent_places {printed front back : List UInt8} {ch : UInt8}
    (sent : uartSent printed = front ++ ch :: back) :
    (ch ∈ printed ∧ (ch = byte '\n' → front.getLast? = some (byte '\r'))) ∨
      (ch = byte '\r' ∧ back.head? = some (byte '\n')) := by
  induction printed generalizing front with
  | nil => simp [uartSent] at sent
  | cons c printed ih =>
    rw [uartSent, List.flatMap_cons, ← uartSent, neoUartPutcBe] at sent
    by_cases newline : c = byte '\n'
    · rw [if_pos newline, newline] at sent
      rcases front with _ | ⟨first, _ | ⟨second, front⟩⟩
      · obtain ⟨rfl, rest⟩ := List.cons.inj sent
        right
        exact ⟨rfl, by rw [← rest]; rfl⟩
      · obtain ⟨rfl, rest⟩ := List.cons.inj sent
        obtain ⟨rfl, -⟩ := List.cons.inj rest
        left
        exact ⟨by simp [newline], fun _ => rfl⟩
      · have rest := (List.cons.inj (List.cons.inj sent).2).2
        rcases ih rest with ⟨member, behind⟩ | cr
        · left
          refine ⟨List.mem_cons_of_mem c member, ?_⟩
          intro ends
          rw [List.getLast?_cons_cons, List.getLast?_cons, behind ends]
          rfl
        · exact Or.inr cr
    · rw [if_neg newline] at sent
      rcases front with _ | ⟨first, front⟩
      · obtain ⟨rfl, -⟩ := List.cons.inj sent
        left
        exact ⟨by simp, fun ends => absurd ends newline⟩
      · rcases ih (List.cons.inj sent).2 with ⟨member, behind⟩ | cr
        · left
          refine ⟨List.mem_cons_of_mem c member, ?_⟩
          intro ends
          rw [List.getLast?_cons, behind ends]
          rfl
        · exact Or.inr cr

/-- After any number of rounds, on any stream and with any devices, the shell has given
`neo_putc` printable characters, newlines, backspaces and characters that were typed,
and of these no control character that ends a line or erases. The UART has sent nothing
else but a CR in front of each newline. The machine prints only such characters, one by
one, and the shell has printed a part of what the machine has. -/
theorem neoAppRun_displays (hal : Hal) (twiAvailable gpioAvailable : Bool) (line : Memory)
    (txn : NeoTxn) (exec : ExecState) (input : List UInt8) (rounds : Nat) :
    ∃ s printed, neoAppRun hal twiAvailable gpioAvailable rounds
        { line := line, txn := txn, exec := exec, input := input } = .ok s ∧
      s.exec.output = exec.output ++ printed ∧
      (∀ ch ∈ printed, Displayable input ch) ∧
      ∀ front ch back, uartSent printed = front ++ ch :: back →
        (Displayable input ch ∧ (ch = byte '\n' → front.getLast? = some (byte '\r'))) ∨
          (ch = byte '\r' ∧ back.head? = some (byte '\n')) := by
  obtain ⟨p, s, loop, split, -, output, adds⟩ := appLoop_reaches hal rounds
    (start_prompted twiAvailable gpioAvailable line txn exec input)
  have split : input = p ++ s.input := split
  have start : PrintsOnly exec.output input (Dialogue.start twiAvailable gpioAvailable exec) :=
    ⟨_, rfl, fun ch member => Or.inl (shown_append (greeting_shown _ _) prompt_shown ch member)⟩
  have part : p ⊆ input := by
    rw [split]
    exact List.subset_append_left _ _
  obtain ⟨whole, prints, only⟩ := prints_takes hal start p part
  have before : exec.output <+: s.exec.output := (List.prefix_append _ _).trans adds
  obtain ⟨printed, same⟩ := before
  -- the shell may still have to print what the machine has printed already
  have inside : printed <+: whole := by
    rw [prints, ← same] at output
    exact (List.prefix_append_right_inj _).mp output
  have shown : ∀ ch ∈ printed, Displayable input ch := fun ch member => only ch (inside.subset member)
  refine ⟨s, printed, loop, same.symm, shown, ?_⟩
  intro front ch back sent
  rcases uartSent_places sent with ⟨member, behind⟩ | cr
  · exact Or.inl ⟨shown ch member, behind⟩
  · exact Or.inr cr

/-! ## Reading an answer -/

/-- The offset and the text of an error report, and nothing for any other answer. -/
def readError (answer : List UInt8) : Option (Int × List UInt8) :=
  if bytes "ERROR at offset " <+: answer then
    let behind := answer.drop (bytes "ERROR at offset ").length
    let number := behind.takeWhile (· ≠ byte ':')
    (readNumber 10 number).map fun n => (n, (behind.drop (number.length + 2)).dropLast)
  else none

/-- A number in decimal is read back as itself. -/
theorem readNumber_signed (n : Int) : readNumber 10 (signedChars n) = some n := by
  have read := readNumber_padded (numberChars_ne_nil n.natAbs 10 false)
    (numberChars_read (by simp [IsBase]) n.natAbs false) 0 0
  have same : signedChars n = signText n ++ numberChars n.natAbs 10 false := by
    unfold signedChars signText
    split_ifs <;> rfl
  rw [same]
  simpa using read

/-- No digit is a colon, which is what ends the number in an error report. -/
theorem digitChar_colon : ∀ upper, ∀ digit < 16, digitChar upper digit ≠ byte ':' := by decide

/-- A printed number holds no colon, so a reader finds its end. -/
theorem signedChars_colon (n : Int) : ∀ ch ∈ signedChars n, ch ≠ byte ':' := by
  have number : ∀ ch ∈ numberChars n.natAbs 10 false, ch ≠ byte ':' := by
    intro ch member
    unfold numberChars at member
    split at member
    · rw [List.mem_singleton.mp member]
      decide
    · obtain ⟨digit, inside, rfl⟩ := List.mem_map.mp member
      have small : digit < 10 := Nat.digits_lt_base (by decide) (List.mem_reverse.mp inside)
      exact digitChar_colon false digit (by omega)
  unfold signedChars
  split
  · exact List.forall_mem_cons.mpr ⟨by decide, number⟩
  · exact number

/-- An error report reads back: the reader stops at the colon, reads the offset in front
of it, and takes the rest as the text. -/
theorem readError_report (v : BitVec 32) (text : CString) :
    readError (errorReport v text) = some (v.toInt, text.chars) := by
  have grouped : errorReport v text = bytes "ERROR at offset " ++
      (signedChars v.toInt ++ byte ':' :: byte ' ' :: (text.chars ++ [byte '\n'])) := by
    simp only [errorReport, List.append_assoc]
    rfl
  have digits : (signedChars v.toInt ++ byte ':' :: byte ' ' :: (text.chars ++ [byte '\n'])).takeWhile
      (· ≠ byte ':') = signedChars v.toInt := by
    rw [List.takeWhile_append_of_pos fun ch member => by simpa using signedChars_colon _ ch member]
    simp
  rw [grouped, readError, if_pos (List.prefix_append _ _)]
  simp only [List.drop_left, digits, readNumber_signed, Option.map_some]
  rw [← List.drop_drop, List.drop_left]
  simp

/-- An answer that differs from the beginning of an error report in some place is read
as no error. -/
theorem readError_other {answer : List UInt8} (i : Nat) {ch : UInt8} (found : answer[i]? = some ch)
    (inside : i < (bytes "ERROR at offset ").length)
    (differs : (bytes "ERROR at offset ")[i]? ≠ some ch) : readError answer = none := by
  rw [readError, if_neg]
  intro reported
  obtain ⟨behind, rfl⟩ := reported
  rw [List.getElem?_append_left inside] at found
  exact differs found

/-- A hex digit is never the letter `R`, which stands second in every error report. -/
theorem hexChar_letter (v : UInt8) : hexChar v ≠ byte 'R' := by
  intro same
  have value := hexVal_hexChar v
  rw [same] at value
  have negative : hexVal (byte 'R') = -1 := by decide
  omega

/-- The report of a command begins with its control byte in hex. -/
theorem report_start (hal : Hal) (h : List HalCall) (c : TwiCmd) :
    ∃ rest, c.report hal h = hexText c.ctrl ++ rest := by
  cases c with
  | write ctrl addr payload => exact ⟨_, rfl⟩
  | read ctrl addr len fmt =>
    simp only [TwiCmd.report, sendReport, List.append_assoc]
    exact ⟨_, rfl⟩

/-- The report of executed commands is never taken for an error: its second character is
a hex digit, and that of an error report is an `R`. -/
theorem readError_chain (hal : Hal) (h : List HalCall) {cs : List TwiCmd} (nonempty : cs ≠ []) :
    readError (chainReport hal h cs) = none := by
  obtain ⟨c, cs, rfl⟩ := List.exists_cons_of_ne_nil nonempty
  obtain ⟨rest, start⟩ := report_start hal h c
  have second : (chainReport hal h (c :: cs))[1]? = some (hexChar c.ctrl) := by
    rw [chainReport, start]
    rfl
  refine readError_other 1 second (by decide) ?_
  intro same
  exact hexChar_letter c.ctrl (Option.some.inj same).symm

/-- The bytes of joined literals are the bytes of both in order. -/
theorem bytes_append (a b : String) : bytes (a ++ b) = bytes a ++ bytes b := by
  rw [bytes, String.toList_append, List.map_append]
  rfl

/-- A literal that begins with a character still does with more text behind it. -/
theorem head_append {a : String} {ch : UInt8} (first : (bytes a)[0]? = some ch) (b : String) :
    (bytes (a ++ b))[0]? = some ch := by
  rw [bytes_append, List.getElem?_append_left (List.getElem?_eq_some_iff.mp first).1, first]

/-- The help text begins with a `C`, unlike an error report. -/
theorem help_head : (bytes helpText)[0]? = some (byte 'C') := by
  unfold helpText
  refine head_append (head_append (head_append (head_append (head_append (head_append (head_append
    (head_append (head_append ?_ _) _) _) _) _) _) _) _) _
  rfl

/-- No answer to a special word is taken for an error. There is one case for each word,
and each answer differs from an error report in one of its first characters. -/
theorem readError_special (hal : Hal) (h : List HalCall) (entry : NeoCmd) :
    readError (specialReport hal h entry) = none := by
  have gpio : some (byte 'E') ≠ some (byte 'g') := by decide
  have help : some (byte 'E') ≠ some (byte 'C') := by decide
  unfold specialReport
  split
  · exact readError_other 0 rfl (by decide) gpio
  · exact readError_other 0 rfl (by decide) gpio
  · exact readError_other 0 help_head (by decide) help

/-- The text of a message holds no NUL, so it reaches the reader in full. -/
theorem messageText_chars (msg : Msg) : (messageText msg).chars = bytes msg.text := by
  rw [messageText, CString.ofBuffer, List.takeWhile_eq_self_iff]
  intro ch member
  rcases literal_shown (msg_plain msg) ch member with ⟨low, -⟩ | newline
  · have nonzero : ch ≠ 0 := by
      rintro rfl
      exact absurd low (by decide)
    simpa using nonzero
  · rw [newline]
    rfl

/-- An answer is understood: whoever reads it learns whether the line was rejected, and
if so at which offset and with which message the parser did. The answers to accepted
lines differ from an error report near their beginning, and a report is read back number
and text. -/
theorem handleLine_told (hal : Hal) (text : CString) (s : Shell) :
    ∃ s' answer, handleLine hal text s = .ok s' ∧ s'.exec.output = s.exec.output ++ answer ∧
      readError answer = s'.txn.error.map fun msg => (s'.txn.errorPos, bytes msg.text) := by
  obtain ⟨s', handled, -, -, printed, rc, parsed⟩ := handleLine_answers hal text s
  refine ⟨s', _, handled, printed, ?_⟩
  have parses := neoParseTransaction_scan text s.txn
  unfold textReport
  cases scanned : scanLine (skipBlanks text.chars) with
  | ok accepted =>
    rw [scanned] at parses
    obtain ⟨next, returned, left⟩ := parses
    rw [parsed] at returned
    obtain ⟨-, rfl⟩ := Prod.mk.inj (Except.ok.inj returned)
    cases accepted with
    | chain cs =>
      have derived := (scanLine_exact _ _).mp scanned
      cases derived with
      | chain derived =>
        have left : Decoded s'.txn cs := left
        rw [scannedReport, readError_chain hal _ (chain_nonempty derived), left.noError]
        rfl
    | special entry =>
      have left : Special s'.txn entry := left
      rw [scannedReport, readError_special, left.noError]
      rfl
  | error failed =>
    obtain ⟨cs, stopped⟩ := failed
    rw [scanned] at parses
    obtain ⟨next, returned, rejected⟩ := parses
    rw [parsed] at returned
    obtain ⟨-, rfl⟩ := Prod.mk.inj (Except.ok.inj returned)
    rw [scannedReport, readError_report, messageText_chars, BitVec.toInt_ofInt, rejected.error,
      rejected.errorPos]
    rfl

end NeoSfp
