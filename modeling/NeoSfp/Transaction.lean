import NeoSfp.Bytes

/-!
# Decoded transactions

The parser's output record: a table of decoded commands sharing one payload
pool. Both arrays keep the source's fixed sizes in their types. Counters that
start at zero and only grow are natural numbers; the `uint16_t` fields of a
command wrap at 2^16 where the source stores into them.
-/

namespace NeoSfp

/-- The longest line that is received. -/
def neoParserLineMax : Nat := 1024
/-- The most payload bytes of one command. -/
def neoParserPayloadMax : Nat := 1022
/-- The most commands of one line. -/
def neoParserMaxCmds : Nat := 160

/-- Size in bytes of the shared payload pool. -/
def payloadPoolSize : Nat := neoParserPayloadMax * 2

/-- The largest read count the syntax admits. -/
def readCountMax : Nat := 0x3FE

/-- What a command does. -/
inductive NeoCmdKind where
  | none
  | twiWrite
  | twiRead
  | gpioOut
  | gpioIn
  | help
deriving DecidableEq, Repr

/-- How received bytes are displayed. -/
inductive NeoFmt where
  | none
  | hex
  | bin
  | ascii
deriving DecidableEq, Repr

/-- One decoded command. The default value is the all-zero record. -/
structure NeoCmd where
  kind : NeoCmdKind := .none
  ctrlByte : UInt8 := 0
  internalAddr : UInt8 := 0
  rdLen : Nat := 0
  rdFmt : NeoFmt := .none
  payloadOff : Nat := 0
  payloadLen : Nat := 0
  gpioByte : UInt8 := 0
deriving DecidableEq, Repr

/-- The static strings the parser can leave in `error`. -/
inductive Msg where
  | hexByteDigits
  | binaryByteBits
  | asciiField
  | payloadExceeds
  | poolExhausted
  | expectedSelector
  | emptyHex
  | emptyBinary
  | emptyAscii
  | asciiRunEnd
  | addrSelector
  | expectedCount
  | missingCount
  | countExceeds
  | missingFormat
  | readEnd
  | tooManyCmds
  | commandStart
  | outDigits
  | outExtra
  | unknownCommand
  | nullInput
  | emptyTransaction
  | garbage
deriving DecidableEq, Repr

/-- The texts of the messages, as the source has them. -/
def Msg.text : Msg → String
  | .hexByteDigits => "hex byte requires two hex digits"
  | .binaryByteBits => "binary byte requires eight bits"
  | .asciiField => "ascii field requires latin letter or digit"
  | .payloadExceeds => "write payload exceeds 1022 bytes"
  | .poolExhausted => "transaction payload pool exhausted"
  | .expectedSelector => "expected format selector h/b/a or _"
  | .emptyHex => "empty hex group"
  | .emptyBinary => "empty binary group"
  | .emptyAscii => "empty ascii group"
  | .asciiRunEnd => "ascii run must end with '_'"
  | .addrSelector => "expected format selector before internal address"
  | .expectedCount => "expected 'h<count>' or end of read command"
  | .missingCount => "missing read count digits"
  | .countExceeds => "read count exceeds h3FE"
  | .missingFormat => "missing display format for read"
  | .readEnd => "read command must end with '_'"
  | .tooManyCmds => "too many commands in transaction"
  | .commandStart => "command must start with hA0/hA1/hA2/hA3"
  | .outDigits => "out_ requires 8 binary digits"
  | .outExtra => "extra characters after out_xxxxxxxx"
  | .unknownCommand => "unknown command"
  | .nullInput => "null input"
  | .emptyTransaction => "empty transaction"
  | .garbage => "garbage after command"

/-- Distinct errors print distinct texts, so a message identifies its error. -/
theorem msg_text_injective (left right : Msg) (same : left.text = right.text) : left = right := by
  cases left <;> cases right <;> first | rfl | simp [Msg.text] at same

/-- The record of a line: commands, payload pool, and the error if there is one, with
its place as an `int`. -/
structure NeoTxn where
  count : Nat
  cmds : Vector NeoCmd neoParserMaxCmds
  payloadPool : Vector UInt8 payloadPoolSize
  payloadUsed : Nat
  error : Option Msg
  errorPos : Int
deriving DecidableEq

/-- A zeroed transaction record. -/
def NeoTxn.zero : NeoTxn where
  count := 0
  cmds := Vector.replicate _ {}
  payloadPool := Vector.replicate _ 0
  payloadUsed := 0
  error := none
  errorPos := 0

end NeoSfp
