import NeoSfp.LineEditing
import NeoSfp.Reports
import NeoSfp.ShellLines

/-!
# The shell, one character at a time

What the shell does can be said without a buffer, a record or a loop. Characters are
edited on a stack; a line end, or a full stack, submits it, and what a submitted text
leads to depends on nothing but the text and the calls made so far. The application's
loop is this machine, on every stream of bytes: it never faults, and what it has
called and printed when it waits is what the machine has.
-/

namespace NeoSfp

open Checked

/-! ## Answers to a text -/

/-- What is printed for a special command behind a history of calls. -/
def specialReport (hal : Hal) (h : List HalCall) (entry : NeoCmd) : List UInt8 :=
  match entry.kind with
  | .gpioOut => bytes "gpio <= " ++ bitsText entry.gpioByte 8 ++ [byte '\n']
  | .gpioIn => bytes "gpio => " ++ bitsText (hal.gpioReadByte h) 8 ++ [byte '\n']
  | _ => bytes helpText

/-- The text of an error, as far as its first NUL. -/
def messageText (msg : Msg) : CString := CString.ofBuffer (bytes msg.text)

/-- What is printed for a text that was scanned, behind a history of calls. -/
def scannedReport (hal : Hal) (h : List HalCall) (text : Text) :
    Except (List TwiCmd × Stop) Parsed → List UInt8
  | .ok (.chain cs) => chainReport hal h cs
  | .ok (.special entry) => specialReport hal h entry
  | .error (_, stopped) =>
    errorReport (BitVec.ofInt 32 (text.length - stopped.rest.length)) (messageText stopped.msg)

/-- What is printed for a text behind a history of calls. -/
def textReport (hal : Hal) (h : List HalCall) (text : CString) : List UInt8 :=
  scannedReport hal h (skipBlanks text.chars) (scanLine (skipBlanks text.chars))

/-! ## The machine -/

/-- The stack of the line being typed, and what has been called and printed. -/
structure Dialogue where
  held : List UInt8 := []
  calls : List HalCall
  output : List UInt8
deriving DecidableEq

namespace Dialogue

/-- Print some characters. -/
def put (s : Dialogue) (chars : List UInt8) : Dialogue := { s with output := s.output ++ chars }

/-- The line is answered and the prompt printed; an empty one has no answer. -/
def submit (hal : Hal) (s : Dialogue) : Dialogue :=
  if s.held = [] then s.put (bytes "> ")
  else
    let text := CString.ofBuffer s.held
    { held := []
      calls := s.calls ++ textCalls text
      output := s.output ++ (textReport hal s.calls text ++ bytes "> ") }

/-- A character that does not end the line. -/
def edit (s : Dialogue) (c : UInt8) : Dialogue :=
  if erases c then
    if s.held = [] then s else { s with held := s.held.dropLast }.put [0x08, byte ' ', 0x08]
  else
    { s with held := s.held ++ [c] }.put [c]

/-- One character. The terminator of a line that fills the stack is a line of its own. -/
def take (hal : Hal) (s : Dialogue) (c : UInt8) : Dialogue :=
  if endsLine c then (s.put [byte '\n']).submit hal
  else if (s.edit c).held.length = neoParserLineMax then (s.edit c).submit hal
  else s.edit c

/-- Characters typed one after the other. -/
def takes (hal : Hal) (s : Dialogue) (input : List UInt8) : Dialogue := input.foldl (take hal) s

/-- Characters typed are taken one at a time, the first one first. -/
theorem takes_cons (hal : Hal) (s : Dialogue) (c : UInt8) (input : List UInt8) :
    s.takes hal (c :: input) = (s.take hal c).takes hal input := rfl

/-- What is typed in two parts is taken part by part. -/
theorem takes_append (hal : Hal) (s : Dialogue) (first second : List UInt8) :
    s.takes hal (first ++ second) = (s.takes hal first).takes hal second := List.foldl_append

end Dialogue

/-! ## A line handled -/

/-- The executor on a record that holds a special command, and what it prints. -/
theorem neoExecRun_specialReport (hal : Hal) (out : NeoTxn) (entry : NeoCmd) (s : ExecState)
    (special : Special out entry)
    (kind : entry.kind = .gpioOut ∨ entry.kind = .gpioIn ∨ entry.kind = .help) :
    neoExecRun hal out s = .ok ⟨⟩ { s with
      calls := s.calls ++ specialCalls entry
      output := s.output ++ specialReport hal s.calls entry } := by
  have stored : out.cmds[0]? = some entry := by
    rw [← Vector.getElem?_toList, special.cmds]
    rfl
  simp only [neoExecRun, special.count, runLoop, Run.bind_apply, Run.read, stored, Run.andThen_ok,
    execCmd, specialCalls, specialReport]
  rcases kind with gpioOut | gpioIn | help
  · simp [gpioOut, printBinByte]
  · simp [gpioIn, gpioReadByte, printBinByte]
  · simp [help, neoExecPrintHelp]

/-- An accepted line is run on the record it leaves, and the shell keeps what the run
printed and called. -/
theorem handleLine_runs {hal : Hal} {text : CString} {s : Shell} {next : NeoTxn} {exec : ExecState}
    (returned : neoParseTransaction (some text) s.txn = .ok (0, next))
    (ran : neoExecRun hal next s.exec = .ok ⟨⟩ exec) :
    handleLine hal text s = .ok { s with txn := next, exec := exec } := by
  simp [handleLine, returned, ran]

/-- Handling a line makes the calls of its text and prints its answer, whatever the
record held before. -/
theorem handleLine_answers (hal : Hal) (text : CString) (s : Shell) :
    ∃ s', handleLine hal text s = .ok s' ∧ s'.input = s.input ∧
      s'.exec.calls = s.exec.calls ++ textCalls text ∧
      s'.exec.output = s.exec.output ++ textReport hal s.exec.calls text ∧
      ∃ rc, neoParseTransaction (some text) s.txn = .ok (rc, s'.txn) := by
  have parses := neoParseTransaction_scan text s.txn
  unfold textCalls textReport
  cases scanned : scanLine (skipBlanks text.chars) with
  | ok parsed =>
    rw [scanned] at parses
    obtain ⟨next, returned, left⟩ := parses
    cases parsed with
    | chain cs =>
      have ran := neoExecRun_chain hal next cs s.exec (decoded_holds left)
      exact ⟨_, handleLine_runs returned ran, rfl, rfl, rfl, 0, returned⟩
    | special entry =>
      have derived := (scanLine_exact _ _).mp scanned
      cases derived with
      | special derived =>
        have kind := scanSpecial_kind ((scanSpecial_exact _ _).mpr derived)
        have ran := neoExecRun_specialReport hal next entry s.exec left kind
        exact ⟨_, handleLine_runs returned ran, rfl, rfl, rfl, 0, returned⟩
  | error failed =>
    obtain ⟨cs, stopped⟩ := failed
    rw [scanned] at parses
    obtain ⟨next, returned, rejected⟩ := parses
    have message : errorText next = messageText stopped.msg := by
      rw [errorText, rejected.error, messageText]
    obtain ⟨n, printed⟩ := neoVfprintf_error (BitVec.ofInt 32 next.errorPos) (errorText next)
      (errorText_short next)
    refine ⟨Shell.print (errorReport (BitVec.ofInt 32 next.errorPos) (errorText next))
      { s with txn := next }, ?_, rfl, ?_, ?_, -1, returned⟩
    · simp only [handleLine, returned, errorArgs, printed]
      rfl
    · simp [Shell.print, scannedCalls]
    · simp only [Shell.print, scannedReport, message, rejected.errorPos, ofInt_wrapInt]

/-! ## A round -/

/-- The reader's locals are the dialogue's line, and what it echoed has been printed. -/
structure Typing (first : Dialogue) (ls : LineState) (s : Dialogue) : Prop where
  held : ls.held = s.held
  calls : s.calls = first.calls
  output : s.output = first.output ++ ls.echoed

/-- Characters put on the line are echoed behind those before. -/
theorem put_echoed (chars : List UInt8) (s : LineState) :
    (s.put true chars).echoed = s.echoed ++ chars := rfl

section

variable {hal : Hal} {first s : Dialogue} {ls : LineState}

/-- An echo keeps the reader and the machine together, since both print the same
characters. -/
theorem typing_put (typing : Typing first ls s) (chars : List UInt8) :
    Typing first (ls.put true chars) (s.put chars) where
  held := by
    rw [put_held]
    exact typing.held
  calls := typing.calls
  output := by rw [put_echoed, ← List.append_assoc, ← typing.output, Dialogue.put]

/-- The reader's count is the length of the machine's line. -/
theorem typing_count (typing : Typing first ls s) : ls.n = s.held.length := by
  rw [← typing.held, held_length]

/-- The body of the loop does what the machine does: a backspace removes the last
character of both, and any other is put on both. -/
theorem typing_edit (typing : Typing first ls s) (c : UInt8) :
    Typing first (lineChar true c ls) (s.edit c) := by
  have count := typing_count typing
  unfold Dialogue.edit
  cases kind : erases c with
  | true =>
    have held := lineChar_erases true c ls kind
    by_cases empty : s.held = []
    · have zero : ¬ ls.n > 0 := by simp [count, empty]
      have same : lineChar true c ls = ls := by simp [lineChar, kind, zero]
      simpa [same, empty] using typing
    · have positive : ls.n > 0 := by
        rw [count]
        exact List.length_pos_of_ne_nil empty
      have echoed : (lineChar true c ls).echoed = ls.echoed ++ [0x08, byte ' ', 0x08] := by
        simp [lineChar, kind, positive, LineState.put]
      rw [if_pos rfl, if_neg empty]
      refine ⟨?_, typing.calls, ?_⟩
      · rw [held, typing.held]
        rfl
      · rw [echoed, ← List.append_assoc, ← typing.output]
        rfl
  | false =>
    have held := lineChar_stores true c ls kind
    have echoed : (lineChar true c ls).echoed = ls.echoed ++ [c] := by
      simp [lineChar, kind, LineState.put]
    rw [if_neg Bool.false_ne_true]
    refine ⟨?_, typing.calls, ?_⟩
    · rw [held, typing.held]
      rfl
    · rw [echoed, ← List.append_assoc, ← typing.output]
      rfl

/-- One character lengthens the line by one at most. -/
theorem edit_length (s : Dialogue) (c : UInt8) : (s.edit c).held.length ≤ s.held.length + 1 := by
  unfold Dialogue.edit
  split_ifs <;> simp [Dialogue.put]
  omega

/-- The loop of the reader follows the machine to the end of the stream, or to the
character behind which the machine submits the line. -/
theorem lineLoop_dialogue (hal : Hal) (input : List UInt8) (typing : Typing first ls s)
    (room : s.held.length < neoParserLineMax) :
    (∃ ls', lineLoop (neoParserLineMax + 1) true input ls = (ls', [], true) ∧
      Typing first ls' (s.takes hal input)) ∨
    (∃ p rest ls' s', input = p ++ rest ∧ p ≠ [] ∧
      lineLoop (neoParserLineMax + 1) true input ls = (ls', rest, false) ∧
      s'.held.length ≤ neoParserLineMax ∧ Typing first ls' s' ∧ s.takes hal p = s'.submit hal) := by
  have count := typing_count typing
  induction input generalizing ls s with
  | nil =>
    left
    refine ⟨ls, ?_, typing⟩
    simp [lineLoop, count, room]
  | cons c input ih =>
    have unfilled : ls.n + 1 < neoParserLineMax + 1 := by omega
    rw [lineLoop, if_pos unfilled]
    cases ends : endsLine c with
    | true =>
      right
      exact ⟨[c], input, _, s.put [byte '\n'], rfl, List.cons_ne_nil _ _, rfl, room.le,
        typing_put typing [byte '\n'], by simp [Dialogue.takes, Dialogue.take, ends]⟩
    | false =>
      have next := typing_edit typing c
      have count' := typing_count next
      have size := edit_length s c
      rw [if_neg Bool.false_ne_true]
      by_cases full : (s.edit c).held.length = neoParserLineMax
      · right
        refine ⟨[c], input, _, s.edit c, rfl, List.cons_ne_nil _ _, ?_, full.le, next, ?_⟩
        · exact lineLoop_full _ _ input _ (by omega)
        · simp [Dialogue.takes, Dialogue.take, ends, full]
      · have goes : s.take hal c = s.edit c := by simp [Dialogue.take, ends, full]
        rcases ih next (by omega) count' with ⟨ls', loop, reached⟩ |
            ⟨p, rest, ls', s', split, -, loop, fits, reached, submits⟩
        · left
          refine ⟨ls', loop, ?_⟩
          rw [Dialogue.takes_cons, goes]
          exact reached
        · right
          refine ⟨c :: p, rest, ls', s', by rw [split]; rfl, List.cons_ne_nil _ _, loop, fits,
            reached, ?_⟩
          rw [Dialogue.takes_cons, goes]
          exact submits

end

/-- The shell has yet to print the prompt that the dialogue has printed. -/
structure Prompted (s : Shell) (t : Dialogue) : Prop where
  held : t.held = []
  calls : t.calls = s.exec.calls
  output : t.output = s.exec.output ++ bytes "> "

/-- What the reader returns, from the last state of its loop: the line with its
terminator, or the mark of a line that is too long. -/
theorem neoUartReadLine_loop {memory : Memory} {input rest : List UInt8} {ls : LineState} {eof : Bool}
    (loop : lineLoop (neoParserLineMax + 1) true input { buf := memory } = (ls, rest, eof)) :
    neoUartReadLine (some memory) (neoParserLineMax + 1) input =
      { n := ls.n, buf := some (Function.update ls.buf ls.n 0), rest := rest, echoed := ls.echoed,
        eof := eof } := by
  simp [neoUartReadLine, neoReadLine, loop]

/-- The shell behind its prompt and a call of the reader. -/
def Shell.afterRead (s : Shell) (ls : LineState) (rest : List UInt8) : Shell :=
  { s.print (bytes "> ") with line := Function.update ls.buf ls.n 0, input := rest }.print ls.echoed

/-- A round of the loop waits, or handles the line that its reader returned. -/
theorem appRound_read (hal : Hal) {s : Shell} {ls : LineState} {rest : List UInt8} {eof : Bool}
    (loop : lineLoop (neoParserLineMax + 1) true s.input { buf := s.line } = (ls, rest, eof)) :
    appRound hal s =
      if eof then .ok (.waiting (s.afterRead ls rest))
      else if ls.n = 0 then .ok (.next (s.afterRead ls rest))
      else match lineString (Function.update ls.buf ls.n 0) with
        | none => .error .line
        | some text => (handleLine hal text (s.afterRead ls rest)).map .next := by
  cases found : lineString (Function.update ls.buf ls.n 0) with
  | none => simp [appRound, Shell.print, neoUartReadLine_loop loop, Shell.afterRead, found]
  | some text => simp [appRound, Shell.print, neoUartReadLine_loop loop, Shell.afterRead, found]

/-- A line that the reader returned is answered as the machine answers it. -/
theorem appRound_submits (hal : Hal) {s : Shell} {t u : Dialogue} (prompted : Prompted s t)
    {ls : LineState} {rest : List UInt8}
    (loop : lineLoop (neoParserLineMax + 1) true s.input { buf := s.line } = (ls, rest, false))
    (fits : u.held.length ≤ neoParserLineMax) (typing : Typing t ls u) :
    ∃ s', appRound hal s = .ok (.next s') ∧ s'.input = rest ∧ Prompted s' (u.submit hal) := by
  have count := typing_count typing
  have output : (s.afterRead ls rest).exec.output = u.output := by
    rw [typing.output, prompted.output]
    rfl
  have calls : (s.afterRead ls rest).exec.calls = u.calls := by
    rw [typing.calls, prompted.calls]
    rfl
  rw [appRound_read hal loop, if_neg Bool.false_ne_true]
  unfold Dialogue.submit
  by_cases empty : u.held = []
  · have zero : ls.n = 0 := by rw [count, empty, List.length_nil]
    rw [if_pos zero, if_pos empty]
    refine ⟨s.afterRead ls rest, rfl, rfl, empty, calls.symm, ?_⟩
    rw [output]
    rfl
  · have positive : ls.n ≠ 0 := by
      rw [count]
      exact fun none => empty (List.length_eq_zero_iff.mp none)
    have stored : (List.range u.held.length).map (Function.update ls.buf ls.n 0) = u.held := by
      rw [← count, range_update]
      exact typing.held
    have string := lineString_stored _ u.held stored (by rw [← count, Function.update_self]) fits
    obtain ⟨s', handled, input, made, printed, -⟩ :=
      handleLine_answers hal (CString.ofBuffer u.held) (s.afterRead ls rest)
    rw [if_neg positive, if_neg empty, string]
    refine ⟨s', ?_, input, rfl, ?_, ?_⟩
    · simp only [handled]
      rfl
    · rw [made, calls]
    · rw [printed, calls, output, List.append_assoc]

/-- A round of the loop waits behind all of the stream, or takes the shell and the
machine behind the same part of it. -/
theorem appRound_dialogue (hal : Hal) {s : Shell} {t : Dialogue} (prompted : Prompted s t) :
    (∃ s', appRound hal s = .ok (.waiting s') ∧ s'.input = [] ∧
      s'.exec.calls = (t.takes hal s.input).calls ∧
      s'.exec.output = (t.takes hal s.input).output) ∨
    (∃ p s', s.input = p ++ s'.input ∧ p ≠ [] ∧ appRound hal s = .ok (.next s') ∧
      Prompted s' (t.takes hal p)) := by
  have start : Typing t { buf := s.line } t := ⟨prompted.held.symm, rfl, by simp⟩
  have room : t.held.length < neoParserLineMax := by simp [prompted.held, neoParserLineMax]
  rcases lineLoop_dialogue hal s.input start room with ⟨ls, loop, typing⟩ |
      ⟨p, rest, ls, u, split, some_char, loop, fits, typing, submits⟩
  · left
    refine ⟨s.afterRead ls [], ?_, rfl, ?_, ?_⟩
    · rw [appRound_read hal loop, if_pos rfl]
    · rw [typing.calls, prompted.calls]
      rfl
    · rw [typing.output, prompted.output]
      rfl
  · right
    obtain ⟨s', round, left, reached⟩ := appRound_submits hal prompted loop fits typing
    exact ⟨p, s', by rw [left]; exact split, some_char, round, by rw [submits]; exact reached⟩

/-! ## Runs -/

/-- The loop, on any stream: it does not fault, it ends up waiting for more, and by
then it has called and printed what the machine has. -/
theorem appLoop_dialogue (hal : Hal) (rounds : Nat) {s : Shell} {t : Dialogue}
    (prompted : Prompted s t) (enough : s.input.length < rounds) :
    ∃ s', appLoop hal rounds s = .ok s' ∧ s'.input = [] ∧
      s'.exec.calls = (t.takes hal s.input).calls ∧
      s'.exec.output = (t.takes hal s.input).output := by
  induction rounds generalizing s t with
  | zero => exact absurd enough (Nat.not_lt_zero _)
  | succ rounds ih =>
    rw [appLoop]
    rcases appRound_dialogue hal prompted with ⟨s', round, drained, calls, output⟩ |
        ⟨p, s', split, some_char, round, reached⟩
    · exact ⟨s', by rw [round], drained, calls, output⟩
    · have shorter : s'.input.length < rounds := by
        have positive := List.length_pos_of_ne_nil some_char
        rw [split, List.length_append] at enough
        omega
      obtain ⟨last, loop, drained, calls, output⟩ := ih reached shorter
      refine ⟨last, ?_, drained, ?_, ?_⟩
      · rw [round]
        exact loop
      · rw [calls, split, Dialogue.takes_append]
      · rw [output, split, Dialogue.takes_append]

/-- A dialogue behind its greeting and its first prompt. -/
def Dialogue.start (twiAvailable gpioAvailable : Bool) (exec : ExecState) : Dialogue where
  calls := exec.calls
  output := exec.output ++ (greeting twiAvailable gpioAvailable ++ bytes "> ")

/-- The application behind its greeting is where the machine starts, whatever its static
memory holds. -/
theorem start_prompted (twiAvailable gpioAvailable : Bool) (line : Memory) (txn : NeoTxn)
    (exec : ExecState) (input : List UInt8) :
    Prompted (Shell.print (greeting twiAvailable gpioAvailable)
      { line := line, txn := txn, exec := exec, input := input })
      (Dialogue.start twiAvailable gpioAvailable exec) := by
  refine ⟨rfl, rfl, ?_⟩
  simp [Dialogue.start, Shell.print]

/-- The application is the machine. On every stream of bytes and every hardware,
whatever its statics hold at the start, it never faults, reads all of the stream, and
has called and printed what the machine has when it waits for more. A round of the loop
takes the shell and the machine behind the next line together. -/
theorem neoAppRun_dialogue (hal : Hal) (twiAvailable gpioAvailable : Bool) (line : Memory)
    (txn : NeoTxn) (exec : ExecState) (input : List UInt8) (rounds : Nat)
    (enough : input.length < rounds) :
    ∃ s, neoAppRun hal twiAvailable gpioAvailable rounds
        { line := line, txn := txn, exec := exec, input := input } = .ok s ∧ s.input = [] ∧
      s.exec.calls = ((Dialogue.start twiAvailable gpioAvailable exec).takes hal input).calls ∧
      s.exec.output = ((Dialogue.start twiAvailable gpioAvailable exec).takes hal input).output :=
  appLoop_dialogue hal rounds (start_prompted _ _ _ _ _ _) enough

/-- The line `inq`, its last letter corrected before it is entered. -/
def correctedInp : List UInt8 := bytes "inq" ++ [0x7F] ++ bytes "p\n"

/-- A line that is corrected before it is entered, on memory that is not blank. -/
theorem neoAppRun_dialogue_correctedInp :
    ∃ s, neoAppRun acknowledging true true 7
        { line := fun _ => 0xFF, txn := NeoTxn.zero, exec := {}, input := correctedInp } = .ok s ∧
      s.input = [] ∧
      s.exec.calls = ((Dialogue.start true true {}).takes acknowledging correctedInp).calls ∧
      s.exec.output = ((Dialogue.start true true {}).takes acknowledging correctedInp).output :=
  neoAppRun_dialogue acknowledging true true _ _ {} correctedInp 7 (by decide)

end NeoSfp
