import NeoSfp.Executor
import NeoSfp.Formatter
import NeoSfp.LineReader

/-!
# The command-line application

`neo_app_run` never returns: it prompts, reads a line into a static buffer, parses
it into a static record and runs the record. Both statics and everything received,
called and printed so far are the state of the loop. A round that asks for a
character which has not been received waits, and the run stands there.
-/

namespace NeoSfp

/-- What no round may do: use a line without its NUL, or fault in the parser, the
formatter or the executor. -/
inductive ShellFault where
  | line
  | parse (reason : Fault)
  | format (reason : FormatFault)
  | exec (reason : Fault)
deriving DecidableEq, Repr

/-- The statics `s_line` and `s_txn`, the hardware calls and output so far, and the
characters received but not yet read. -/
structure Shell where
  line : Memory := fun _ => 0
  txn : NeoTxn := NeoTxn.zero
  exec : ExecState := {}
  input : List UInt8

/-- Print behind what has been printed. -/
def Shell.print (chars : List UInt8) (s : Shell) : Shell :=
  { s with exec := { s.exec with output := s.exec.output ++ chars } }

/-- What `neo_uart_putc_be` sends for a character given to `neo_putc`: a newline goes
out behind a CR. -/
def neoUartPutcBe (c : UInt8) : List UInt8 := if c = byte '\n' then [byte '\r', c] else [c]

/-- What the UART sends for all that is given to `neo_putc`. -/
def uartSent (output : List UInt8) : List UInt8 := output.flatMap neoUartPutcBe

/-- The string in `s_line`; none if its array holds no NUL. -/
def lineString (line : Memory) : Option CString :=
  let buf := (List.range (neoParserLineMax + 1)).map line
  if 0 ∈ buf then some (CString.ofBuffer buf) else none

/-- The format of an error report. -/
def errorFormat : CString := CString.ofBuffer (bytes "ERROR at offset %d: %s\n")

/-- `s_txn.error`, or a stand-in. -/
def errorText (txn : NeoTxn) : CString :=
  CString.ofBuffer (bytes (match txn.error with
    | some msg => msg.text
    | none => "(unknown)"))

/-- The arguments of an error report: the place as an `int`, and the text. -/
def errorArgs (txn : NeoTxn) : List (VArg .ilp32) :=
  [.int (BitVec.ofInt 32 txn.errorPos), .str (some (errorText txn))]

/-- A line that has been read: it is parsed, and then reported or run. -/
def handleLine (hal : Hal) (text : CString) (s : Shell) : Except ShellFault Shell :=
  match neoParseTransaction (some text) s.txn with
  | .error reason => .error (.parse reason)
  | .ok (rc, txn) =>
    let s := { s with txn := txn }
    if rc ≠ 0 then
      match neoVfprintf errorFormat (errorArgs txn) with
      | .error reason => .error (.format reason)
      | .ok (_, chars) => .ok (s.print chars)
    else
      match neoExecRun hal txn s.exec with
      | .ok _ exec => .ok { s with exec := exec }
      | .err exec => .ok { s with exec := exec }
      | .fault reason => .error (.exec reason)

/-- How a round of the loop leaves the shell. -/
inductive Round where
  | waiting (s : Shell)
  | next (s : Shell)

/-- One round of `for(;;)`. -/
def appRound (hal : Hal) (s : Shell) : Except ShellFault Round :=
  let s := s.print (bytes "> ")
  let r := neoUartReadLine (some s.line) (neoParserLineMax + 1) s.input
  let s := { s with line := r.buf.getD s.line, input := r.rest }.print r.echoed
  if r.eof then
    .ok (.waiting s)
  else if r.n = 0 then
    .ok (.next s)
  else
    match lineString s.line with
    | none => .error .line
    | some text => (handleLine hal text s).map .next

/-- The first rounds of the loop. -/
def appLoop (hal : Hal) : Nat → Shell → Except ShellFault Shell
  | 0, s => .ok s
  | rounds + 1, s =>
    match appRound hal s with
    | .error reason => .error reason
    | .ok (.waiting s) => .ok s
    | .ok (.next s) => appLoop hal rounds s

/-- The greeting, behind warnings about missing controllers. -/
def greeting (twiAvailable gpioAvailable : Bool) : List UInt8 :=
  (if twiAvailable then [] else bytes "WARNING: TWI controller not available\n") ++
    (if gpioAvailable then [] else bytes "WARNING: GPIO controller not available\n") ++
    bytes "\nNEO shell ready.  Type 'help' or '?' for commands.\n"

/-- The application's first rounds. -/
def neoAppRun (hal : Hal) (twiAvailable gpioAvailable : Bool) (rounds : Nat) (s : Shell) :
    Except ShellFault Shell :=
  appLoop hal rounds (s.print (greeting twiAvailable gpioAvailable))

end NeoSfp
