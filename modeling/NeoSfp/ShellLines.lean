import NeoSfp.BusTransactions
import NeoSfp.FormatterText
import NeoSfp.GrammarLines
import NeoSfp.LineStream
import NeoSfp.Shell

/-!
# Lines of the shell

Whatever earlier lines left in the buffer and in the record, a round handles its
line as if both were fresh: the reader terminates the text it stores, the parser
clears the record, and the executor reads only what the parser has written since.
-/

namespace NeoSfp

open Checked

/-! ## The error report -/

/-- The beginning of the error format has neither a directive nor its end inside. -/
theorem ordinary_error : ∀ c ∈ bytes "ERROR at offset ", c ≠ 0 ∧ c ≠ '%' := by
  simp [bytes]

/-- The separator of the error format has neither a directive nor its end inside. -/
theorem ordinary_separator : ∀ c ∈ bytes ": ", c ≠ 0 ∧ c ≠ '%' := by
  simp [bytes]

/-- The newline at the end of the error format is sent as it is. -/
theorem ordinary_newline : ∀ c ∈ [byte '\n'], c ≠ 0 ∧ c ≠ '%' := by
  simp

/-- The letter of `%d` stands for itself, without flags or amounts. -/
theorem letter_d : IsLetter 'd' := by simp [IsLetter, byte]

/-- The letter of `%s` stands for itself, without flags or amounts. -/
theorem letter_s : IsLetter 's' := by simp [IsLetter, byte]

/-- The error format in its parts: text, a number, a separator, a string and a
newline. -/
theorem errorFormat_chars : errorFormat.chars = bytes "ERROR at offset " ++ byte '%' :: byte 'd' ::
    (bytes ": " ++ byte '%' :: byte 's' :: ([byte '\n'] ++ [])) := rfl

/-- The characters of an error report. -/
def errorReport (v : BitVec 32) (text : CString) : List UInt8 :=
  bytes "ERROR at offset " ++ signedChars v.toInt ++ bytes ": " ++ text.chars ++ [byte '\n']

/-- What the error report puts in the sink: the parts of the format one after the other,
with the position and the text in them. -/
theorem formatCore_error (v : BitVec 32) (text : CString) (short : text.chars.length < 2 ^ 31)
    (sink : Sink) :
    ∃ s, formatCore emitOut
        (⟨sink, errorFormat.chars, [.int v, .str (some text)], false⟩ : FormatState .ilp32) =
          .ok ⟨⟩ s ∧ s.sink = (errorReport v text).foldl emitOut sink := by
  have size : errorFormat.chars.length + 1 = (bytes "ERROR at offset ").length + (7 + 1) := rfl
  have middle : 7 = (bytes ": ").length + (4 + 1) := rfl
  have last : 4 = [byte '\n'].length + (2 + 1) := rfl
  have number : ∀ s : FormatState .ilp32, emitConversion emitOut 'd' 0 {} (-1) 0 s =
      emitSigned emitOut 0 {} (-1) 0 s := fun s => by simp [emitConversion]
  rw [formatCore, Run.bind_apply]
  simp only [fmtLeft, Run.read, Run.andThen_ok, size]
  rw [errorFormat_chars, formatLoop_text emitOut _ _ ordinary_error,
    formatLoop_directive emitOut _ letter_d, number, emitSigned_bare, Run.andThen_ok, middle,
    formatLoop_text emitOut _ _ ordinary_separator, formatLoop_directive emitOut _ letter_s,
    emitString_bare emitOut text short, Run.andThen_ok, last, formatLoop_text emitOut _ _ ordinary_newline,
    formatLoop_end]
  refine ⟨_, rfl, ?_⟩
  simp only [errorReport, List.foldl_append]

/-- The report is printed for every position and every text, and printing it does not
fault. -/
theorem neoVfprintf_error (v : BitVec 32) (text : CString) (short : text.chars.length < 2 ^ 31) :
    ∃ n, neoVfprintf errorFormat [.int v, (.str (some text) : VArg .ilp32)] =
      .ok (n, errorReport v text) := by
  obtain ⟨s, run, sink⟩ := formatCore_error v text short { out := true }
  have sent := (emitOut_sent (errorReport v text) { out := true } rfl).2
  refine ⟨s.sink.produced, ?_⟩
  simp only [neoVfprintf, runFormat, run, bind, Except.bind, pure, Except.pure]
  rw [sink, sent, List.nil_append]

/-- The texts of the parser's errors are a few words, so none is too long for the
formatter. -/
theorem errorText_short (txn : NeoTxn) : (errorText txn).chars.length < 2 ^ 31 := by
  have words : ∀ words : List UInt8, (CString.ofBuffer words).chars.length ≤ words.length :=
    fun words => (List.takeWhile_prefix _).length_le
  apply (words _).trans_lt
  cases txn.error with
  | none => decide
  | some msg => cases msg <;> decide

/-! ## A line handled -/

/-- The calls of a line as it was scanned. -/
def scannedCalls : Except (List TwiCmd × Stop) Parsed → List HalCall
  | .ok (.chain cs) => cs.flatMap TwiCmd.frame
  | .ok (.special entry) => specialCalls entry
  | .error _ => []

/-- The calls a text leads to. -/
def textCalls (text : CString) : List HalCall := scannedCalls (scanLine (skipBlanks text.chars))

/-- A parse, with what is run after it: whatever the record held before, an accepted
text leads to its calls, and a rejected one to none. -/
theorem neoParseTransaction_calls (text : CString) (out : NeoTxn) :
    ∃ rc next, neoParseTransaction (some text) out = .ok (rc, next) ∧
      (rc = 0 → ∀ hal s, ∃ s', neoExecRun hal next s = .ok ⟨⟩ s' ∧
        s'.calls = s.calls ++ textCalls text) ∧
      (rc ≠ 0 → textCalls text = []) := by
  have parses := neoParseTransaction_scan text out
  unfold textCalls
  cases scanned : scanLine (skipBlanks text.chars) with
  | ok parsed =>
    rw [scanned] at parses
    obtain ⟨next, returned, left⟩ := parses
    refine ⟨0, next, returned, ?_, fun rejected => absurd rfl rejected⟩
    intro _ hal s
    cases parsed with
    | chain cs => exact ⟨_, neoExecRun_chain hal next cs s (decoded_holds left), rfl⟩
    | special entry =>
      have derived := (scanLine_exact _ _).mp scanned
      cases derived with
      | special derived =>
        have kind := scanSpecial_kind ((scanSpecial_exact _ _).mpr derived)
        obtain ⟨s', ran, calls, -⟩ := neoExecRun_special hal next entry s left kind
        exact ⟨s', ran, calls⟩
  | error stopped =>
    rw [scanned] at parses
    obtain ⟨next, returned, -⟩ := parses
    exact ⟨-1, next, returned, fun accepted => absurd accepted (by decide), fun _ => rfl⟩

/-- Handling a line adds its calls and leaves the input alone, whether the line is run
or reported. -/
theorem handleLine_calls (hal : Hal) (text : CString) (s : Shell) :
    ∃ s', handleLine hal text s = .ok s' ∧ s'.input = s.input ∧
      s'.exec.calls = s.exec.calls ++ textCalls text := by
  obtain ⟨rc, next, returned, accepted, rejected⟩ := neoParseTransaction_calls text s.txn
  by_cases zero : rc = 0
  · obtain ⟨exec, ran, calls⟩ := accepted zero hal s.exec
    refine ⟨{ s with txn := next, exec := exec }, ?_, rfl, calls⟩
    simp [handleLine, returned, zero, ran]
  · obtain ⟨n, printed⟩ := neoVfprintf_error (BitVec.ofInt 32 next.errorPos) (errorText next)
      (errorText_short next)
    let report := errorReport (BitVec.ofInt 32 next.errorPos) (errorText next)
    refine ⟨Shell.print report { s with txn := next }, ?_, rfl, ?_⟩
    · simp only [handleLine, returned, errorArgs, if_pos zero, printed]
      rfl
    · simp [Shell.print, rejected zero]

/-! ## A round -/

/-- The string in a buffer is what stands before its first NUL, so what earlier lines
left behind it is not seen. -/
theorem ofBuffer_line (text residue : List UInt8) :
    CString.ofBuffer (text ++ 0 :: residue) = CString.ofBuffer text := by
  have same : (text ++ 0 :: residue).takeWhile (· ≠ 0) = text.takeWhile (· ≠ 0) := by
    induction text with
    | nil => simp
    | cons c text ih => simp only [List.cons_append, List.takeWhile_cons, ih]
  simp only [CString.ofBuffer, same]

/-- The array holds the stored text, a NUL and what was there before. -/
theorem lineString_stored (line : Memory) (text : List UInt8)
    (stored : (List.range text.length).map line = text) (nul : line text.length = 0)
    (short : text.length ≤ neoParserLineMax) :
    lineString line = some (CString.ofBuffer text) := by
  obtain ⟨extra, size⟩ : ∃ extra, neoParserLineMax + 1 = text.length + (extra + 1) :=
    ⟨neoParserLineMax - text.length, by omega⟩
  have buffer : (List.range (neoParserLineMax + 1)).map line =
      text ++ 0 :: (List.range extra).map fun i => line (text.length + (i + 1)) := by
    rw [size, List.range_add, List.map_append, stored, List.map_map, List.range_succ_eq_map]
    simp [nul, Function.comp_def]
  simp [lineString, buffer, ofBuffer_line]

/-- A round whose reader returns adds the calls of what was read, whatever the statics
hold. -/
theorem appRound_calls (hal : Hal) (s : Shell) {text rest : List UInt8}
    (returns : Returns (neoUartReadLine (some s.line) (neoParserLineMax + 1) s.input) text rest)
    (short : text.length ≤ neoParserLineMax) :
    ∃ s', appRound hal s = .ok (.next s') ∧ s'.input = rest ∧
      s'.exec.calls = s.exec.calls ++ textCalls (CString.ofBuffer text) := by
  obtain ⟨line, kept, stored, nul⟩ := returns.buf
  let read : Shell :=
    { s.print (bytes "> ") with line := line, input := rest }.print
      (neoUartReadLine (some s.line) (neoParserLineMax + 1) s.input).echoed
  have round : appRound hal s =
      if text.length = 0 then .ok (.next read)
      else (handleLine hal (CString.ofBuffer text) read).map .next := by
    simp only [appRound, Shell.print, returns.received, returns.n, returns.left, kept,
      Option.getD_some, lineString_stored line text stored nul short]
    rfl
  by_cases empty : text.length = 0
  · have blank : text = [] := List.length_eq_zero_iff.mp empty
    refine ⟨read, by rw [round, if_pos empty], rfl, ?_⟩
    rw [blank]
    simp [read, Shell.print, textCalls, CString.ofBuffer, skipBlanks, scanLine, scannedCalls]
  · obtain ⟨s', handled, input, calls⟩ := handleLine_calls hal (CString.ofBuffer text) read
    refine ⟨s', ?_, input, calls⟩
    rw [round, if_neg empty, handled]
    rfl

/-! ## Runs of the shell -/

/-- With nothing received the shell waits, and has made no call. -/
theorem appRound_waits (hal : Hal) (s : Shell) (nothing : s.input = []) :
    ∃ s', appRound hal s = .ok (.waiting s') ∧ s'.input = [] ∧ s'.exec.calls = s.exec.calls := by
  have room : 1 < neoParserLineMax + 1 := by simp [neoParserLineMax]
  simp [appRound, neoUartReadLine, neoReadLine, Shell.print, nothing, lineLoop, room]

/-- One round after another, the shell makes the calls of its lines. By induction on the
lines, each of which takes one round. -/
theorem appLoop_calls (hal : Hal) (lines : List InputLine)
    (short : ∀ line ∈ lines, line.text.length ≤ neoParserLineMax) (rounds : Nat) (s : Shell)
    (input : s.input = stream lines) (enough : (stream lines).length ≤ rounds) :
    ∃ s', appLoop hal rounds s = .ok s' ∧ s'.input = [] ∧ s'.exec.calls =
      s.exec.calls ++ lines.flatMap fun line => textCalls (CString.ofBuffer line.text) := by
  induction lines generalizing rounds s with
  | nil =>
    cases rounds with
    | zero => exact ⟨s, rfl, input, by simp⟩
    | succ rounds =>
      obtain ⟨s', waits, drained, calls⟩ := appRound_waits hal s input
      refine ⟨s', ?_, drained, ?_⟩
      · rw [appLoop, waits]
      · simpa using calls
  | cons line lines ih =>
    have fits := short line List.mem_cons_self
    have later := ih fun line member => short line (List.mem_cons_of_mem _ member)
    rw [stream_cons] at input enough
    rw [List.length_append, List.length_cons] at enough
    by_cases free : line.text.length < neoParserLineMax
    · -- the terminator is taken with the line
      obtain ⟨left, size⟩ : ∃ left, rounds = left + 1 := ⟨rounds - 1, by omega⟩
      have first := neoReadLine_line (neoParserLineMax + 1) true s.line line (stream lines) (by omega)
      rw [← input] at first
      obtain ⟨s', round, rest, calls⟩ := appRound_calls hal s first fits
      obtain ⟨last, loop, drained, others⟩ := later left s' rest (by omega)
      refine ⟨last, ?_, drained, ?_⟩
      · rw [size, appLoop, round]
        exact loop
      · rw [others, calls, List.flatMap_cons, List.append_assoc]
    · -- the buffer is full in front of the terminator, which the next round takes
      have large : 2 ≤ neoParserLineMax := by simp [neoParserLineMax]
      obtain ⟨left, size⟩ : ∃ left, rounds = left + 1 + 1 := ⟨rounds - 2, by omega⟩
      have first := neoReadLine_full (neoParserLineMax + 1) true s.line line.text
        (line.ending :: stream lines) line.plain (by omega)
      rw [← input] at first
      obtain ⟨s', round, rest, calls⟩ := appRound_calls hal s first fits
      have second := neoReadLine_line (neoParserLineMax + 1) true s'.line
        { line with text := [], plain := by simp } (stream lines) (by rw [List.length_nil]; omega)
      rw [List.nil_append, ← rest] at second
      obtain ⟨s'', round', rest', calls'⟩ := appRound_calls hal s' second (Nat.zero_le _)
      obtain ⟨last, loop, drained, others⟩ := later left s'' rest' (by omega)
      have blank : textCalls (CString.ofBuffer []) = [] := rfl
      refine ⟨last, ?_, drained, ?_⟩
      · rw [size, appLoop, round]
        change appLoop hal (left + 1) s' = _
        rw [appLoop, round']
        exact loop
      · rw [others, calls', calls, blank, List.append_nil, List.flatMap_cons, List.append_assoc]

/-! ## Lines entered -/

inductive LineEnding where
  | lf
  | cr
  | crLf
deriving DecidableEq, Repr

def LineEnding.chars : LineEnding → List UInt8
  | .lf => [byte '\n']
  | .cr => [byte '\r']
  | .crLf => [byte '\r', byte '\n']

/-- A line as the shell's reader can hold it. -/
structure Entered where
  text : List UInt8
  ending : LineEnding
  plain : ∀ c ∈ text, endsLine c = false ∧ erases c = false
  nulFree : 0 ∉ text
  short : text.length ≤ neoParserLineMax

/-- What the shell receives of entered lines. -/
def received (entered : List Entered) : List UInt8 :=
  entered.flatMap fun e => e.text ++ e.ending.chars

/-- An entered line as the reader meets it: behind CR, an LF ends an empty line. -/
def Entered.lines (e : Entered) : List InputLine :=
  match e.ending with
  | .lf => [{ text := e.text, ending := '\n', plain := e.plain, ends := endsLine_lf }]
  | .cr => [{ text := e.text, ending := '\r', plain := e.plain, ends := endsLine_cr }]
  | .crLf =>
    [{ text := e.text, ending := '\r', plain := e.plain, ends := endsLine_cr },
      { text := [], ending := '\n', plain := by simp, ends := endsLine_lf }]

/-- What the shell receives of entered lines is a stream of lines as the reader meets
them. -/
theorem received_stream (entered : List Entered) :
    received entered = stream (entered.flatMap Entered.lines) := by
  rw [received, stream, List.flatMap_assoc]
  congr 1
  funext e
  cases ending : e.ending <;> simp [Entered.lines, ending, LineEnding.chars]

/-- The reader meets an entered line's text, and nothing else but an empty line. -/
theorem lines_text {e : Entered} {line : InputLine} (member : line ∈ e.lines) :
    line.text = e.text ∨ line.text = [] := by
  cases ending : e.ending with
  | lf =>
    simp only [Entered.lines, ending, List.mem_singleton] at member
    exact Or.inl (by rw [member])
  | cr =>
    simp only [Entered.lines, ending, List.mem_singleton] at member
    exact Or.inl (by rw [member])
  | crLf =>
    simp only [Entered.lines, ending, List.mem_cons, List.not_mem_nil, or_false] at member
    rcases member with first | second
    · exact Or.inl (by rw [first])
    · exact Or.inr (by rw [second])

/-- The text of an entered line as the parser's argument. -/
def Entered.string (e : Entered) : CString where
  chars := e.text
  nulFree := e.nulFree

/-- The calls of an entered line are those of its text: the empty line behind a CR leads
to none. -/
theorem lines_calls (e : Entered) :
    (e.lines.flatMap fun line => textCalls (CString.ofBuffer line.text)) = textCalls e.string := by
  have blank : textCalls (CString.ofBuffer []) = [] := rfl
  have whole : CString.ofBuffer e.text = e.string := by
    have terminated := ofBuffer_chars e.text [] e.nulFree
    rw [ofBuffer_line] at terminated
    generalize CString.ofBuffer e.text = text at terminated ⊢
    cases text
    cases terminated
    rfl
  cases ending : e.ending <;> simp [Entered.lines, ending, whole, blank]

/-- The calls of a line handled on its own: it is parsed into a zeroed record, which
is run if the line is accepted. -/
def freshCalls (hal : Hal) (text : CString) : List HalCall :=
  match neoParseTransaction (some text) NeoTxn.zero with
  | .ok (rc, txn) =>
    if rc = 0 then
      match neoExecRun hal txn {} with
      | .ok _ s => s.calls
      | .err s => s.calls
      | .fault _ => []
    else []
  | .error _ => []

/-- The calls of a line handled on its own are those of its text, since the record is
cleared before it is filled. -/
theorem freshCalls_text (hal : Hal) (text : CString) : freshCalls hal text = textCalls text := by
  obtain ⟨rc, next, returned, accepted, rejected⟩ := neoParseTransaction_calls text NeoTxn.zero
  by_cases zero : rc = 0
  · obtain ⟨s, ran, calls⟩ := accepted zero hal {}
    simp only [freshCalls, returned, if_pos zero, ran, calls]
    rfl
  · simp only [freshCalls, returned, if_neg zero, rejected zero]

/-- Empty lines lead to no calls. By induction on the lines. -/
theorem nonempty_calls (entered : List Entered) :
    (entered.filter fun e => e.text ≠ []).flatMap (fun e => textCalls e.string) =
      entered.flatMap fun e => textCalls e.string := by
  induction entered with
  | nil => rfl
  | cons e entered ih =>
    by_cases empty : e.text = []
    · have blank : textCalls e.string = [] := by
        simp [textCalls, Entered.string, empty, skipBlanks, scanLine, scannedCalls]
      rw [List.filter_cons_of_neg (by simpa using empty), ih, List.flatMap_cons, blank,
        List.nil_append]
    · rw [List.filter_cons_of_pos (by simpa using empty), List.flatMap_cons, ih, List.flatMap_cons]

/-- Lines do not influence each other. Whatever the shell's statics hold at the start,
and whatever the hardware answers, its calls are those that each nonempty line would
lead to on its own, in the order of the lines. A round reads one line, terminates it
in the buffer and clears the record before it fills it, and the induction is on the
lines. -/
theorem neoAppRun_calls (hal fresh : Hal) (twiAvailable gpioAvailable : Bool)
    (entered : List Entered) (line : Memory) (txn : NeoTxn) (exec : ExecState) (rounds : Nat)
    (enough : (received entered).length ≤ rounds) :
    ∃ s, neoAppRun hal twiAvailable gpioAvailable rounds
        { line := line, txn := txn, exec := exec, input := received entered } = .ok s ∧
      s.input = [] ∧
      s.exec.calls = exec.calls ++
        (entered.filter fun e => e.text ≠ []).flatMap fun e => freshCalls fresh e.string := by
  have short : ∀ line ∈ entered.flatMap Entered.lines, line.text.length ≤ neoParserLineMax := by
    intro line member
    obtain ⟨e, -, inside⟩ := List.mem_flatMap.mp member
    rcases lines_text inside with text | empty
    · rw [text]
      exact e.short
    · rw [empty]
      exact Nat.zero_le _
  rw [received_stream] at enough
  obtain ⟨s, loop, drained, calls⟩ := appLoop_calls hal (entered.flatMap Entered.lines) short rounds
    (Shell.print (greeting twiAvailable gpioAvailable)
      { line := line, txn := txn, exec := exec, input := received entered })
    (received_stream entered) enough
  refine ⟨s, loop, drained, ?_⟩
  rw [calls, List.flatMap_assoc]
  simp only [lines_calls, freshCalls_text, nonempty_calls]
  rfl

/-- Two writes with payload, ended by CR LF and CR, around the line `x`. -/
def rejectBetween : List Entered :=
  [{ text := bytes "hA0h01h02h03", ending := .crLf, plain := by simp [bytes, endsLine, erases, byte]
     nulFree := by simp [bytes], short := by simp [bytes, neoParserLineMax] },
    { text := bytes "x", ending := .lf, plain := by simp [bytes, endsLine, erases, byte]
      nulFree := by simp [bytes], short := by simp [bytes, neoParserLineMax] },
    { text := bytes "hA0h01h02", ending := .cr, plain := by simp [bytes, endsLine, erases, byte]
      nulFree := by simp [bytes], short := by simp [bytes, neoParserLineMax] }]

/-- The calls of a line with one command are the frame of the command. -/
theorem freshCalls_single {hal : Hal} {text : CString} {c : TwiCmd}
    (derived : Cmd (skipBlanks text.chars) c []) (fits : Fits 0 0 [c]) :
    freshCalls hal text = c.frame := by
  have line : Line (skipBlanks text.chars) (.chain [c]) :=
    .chain (.line derived (.done []) (.done [])) fits
  rw [freshCalls_text, textCalls, (scanLine_exact _ _).mpr line, scannedCalls, List.flatMap_singleton]

/-- Both writes are made with their own payload, and the line between them does nothing. -/
theorem neoAppRun_calls_rejectBetween :
    ∃ s, neoAppRun acknowledging true true 26
        { line := fun _ => 0xFF, txn := NeoTxn.zero, exec := {}, input := received rejectBetween } =
          .ok s ∧
      s.input = [] ∧
      s.exec.calls =
        [.twiStart, .twiTrans 0xA0 0, .twiTrans 0x01 0, .twiTrans 0x02 0, .twiTrans 0x03 0, .twiStop,
          .twiStart, .twiTrans 0xA0 0, .twiTrans 0x01 0, .twiTrans 0x02 0, .twiStop] := by
  obtain ⟨s, ran, drained, calls⟩ := neoAppRun_calls acknowledging acknowledging true true
    rejectBetween (fun _ => 0xFF) NeoTxn.zero {} 26
    (by simp [rejectBetween, received, bytes, LineEnding.chars])
  refine ⟨s, ran, drained, calls.trans ?_⟩
  have two : freshCalls acknowledging (CString.ofBuffer (bytes "hA0h01h02h03")) =
      TwiCmd.frame (.write 0xA0 0x01 [0x02, 0x03]) :=
    freshCalls_single (writeTwo_derived [])
      { count := by decide, each := by decide, total := by decide }
  have one : freshCalls acknowledging (CString.ofBuffer (bytes "hA0h01h02")) =
      TwiCmd.frame (.write 0xA0 0x01 [0x02]) :=
    freshCalls_single (writeByte_derived [])
      { count := by decide, each := by decide, total := by decide }
  have none : freshCalls acknowledging (CString.ofBuffer (bytes "x")) = [] := by
    rw [freshCalls_text]
    rfl
  have texts : (rejectBetween.filter fun e => e.text ≠ []).map Entered.string =
      [CString.ofBuffer (bytes "hA0h01h02h03"), CString.ofBuffer (bytes "x"),
        CString.ofBuffer (bytes "hA0h01h02")] := rfl
  rw [← List.flatMap_map, texts]
  simp only [List.flatMap_cons, List.flatMap_nil, two, none, one]
  rfl

end NeoSfp
