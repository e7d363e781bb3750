import NeoSfp.Checked
import NeoSfp.Transaction

/-!
# The transaction parser

The parser works on a cursor into the line and fills a transaction record. Every
read, pointer step and array store is checked: a read or a step past the line's
NUL, a store outside `cmds` or `payload_pool`, and a loop that outlives its fuel
are faults. A loop's fuel is one more than the characters left at its entry,
each further iteration having to consume at least one of them.
-/

namespace NeoSfp

open Checked

/-- What no run may do: leave the line or one of the arrays, or go round a loop more
often than there are characters. -/
inductive Fault where
  | pastNul
  | cmdIndex
  | poolIndex
  | fuel
deriving DecidableEq, Repr

/-- The parsing cursor. `p` is a suffix of `base`, the text the parse started at. -/
structure Cur where
  base : Text
  p : Text
  out : NeoTxn

/-- A routine of the parser: it succeeds with a value, rejects the line, or faults. -/
abbrev Parser := Run Fault Cur

/-- Record a message at the cursor's offset, converted to `int`, and return -1. -/
def errAt {α : Type} (msg : Msg) : Parser α := Run.reject fun c =>
  { c with
    out := { c.out with error := some msg, errorPos := wrapInt (c.base.length - c.p.length) } }

/-- The read `c->p[k]`. -/
def peek (k : Nat) : Parser UInt8 := Run.read .pastNul fun c => rd c.p k

/-- `++c->p`, which must not step past the NUL. -/
def advance : Parser PUnit := Run.update .pastNul fun c =>
  match c.p with
  | [] => none
  | _ :: rest => some { c with p := rest }

/-- Move the cursor to another place in the line. -/
def moveTo (p : Text) : Parser PUnit := Run.modify fun c => { c with p := p }

/-- The cursor is at the NUL. -/
def eos : Parser Bool := do
  let c ← Run.get
  pure c.p.isEmpty

/-- Store into `cmds[i]`. -/
def modifyCmd (i : Nat) (change : NeoCmd → NeoCmd) : Parser PUnit := Run.update .cmdIndex fun c =>
  if inside : i < neoParserMaxCmds then
    some { c with out := { c.out with cmds := c.out.cmds.set i (change c.out.cmds[i]) } }
  else none

/-- `out->count++`. -/
def countUp : Parser PUnit := Run.modify fun c =>
  { c with out := { c.out with count := c.out.count + 1 } }

/-- Both operands are nonnegative where the source combines them, behind the
`is_hex` tests of the two digits. -/
def hexPair (high low : UInt8) : UInt8 :=
  UInt8.ofNat ((hexVal high).toNat <<< 4 ||| (hexVal low).toNat)

/-- Two hex digits at the cursor, of which the second is looked at only behind the
first. -/
def decodeHexByte : Parser UInt8 := do
  let high ← peek 0
  if !isHex high then
    errAt .hexByteDigits
  else do
    let low ← peek 1
    if !isHex low then
      errAt .hexByteDigits
    else do
      advance
      advance
      pure (hexPair high low)

/-- Shift one bit character into the low end of a byte. -/
def shiftBit (v ch : UInt8) : UInt8 := (v <<< 1) ||| (ch - '0')

/-- The digits of a binary byte, `bits` of which have been read into `v`; a `_` between
them is skipped. -/
def decodeBinLoop : Nat → Nat → UInt8 → Parser UInt8
  | 0, _, _ => Run.fault .fuel
  | fuel + 1, bits, v =>
    if bits < 8 then do
      let ch ← peek 0
      if ch = '_' then do
        advance
        decodeBinLoop fuel bits v
      else if !isBin ch then
        errAt .binaryByteBits
      else do
        advance
        decodeBinLoop fuel (bits + 1) (shiftBit v ch)
    else
      pure v

/-- Eight binary digits at the cursor, with any `_` in front of each of them. -/
def decodeBinByte : Parser UInt8 := do
  let c ← Run.get
  decodeBinLoop (c.p.length + 1) 0 0

/-- One letter or digit at the cursor, which stands for itself. -/
def decodeAsciiByte : Parser UInt8 := do
  let ch ← peek 0
  if !isAlnumLat ch then
    errAt .asciiField
  else do
    advance
    pure ch

/-- The lookahead reads `p[1]` and `p[2]` only behind a match of what precedes. -/
def atCmdStart (p : Text) : Option Bool := do
  let first ← rd p 0
  if first ≠ 'h' then
    return false
  let second ← rd p 1
  if second ≠ 'A' then
    return false
  let d ← rd p 2
  return d == '0' || d == '1' || d == '2' || d == '3'

/-- The lookahead at the cursor. -/
def cmdStartHere : Parser Bool := Run.read .pastNul fun c => atCmdStart c.p

/-- One more payload byte for the command. The command's own limit is tested before that
of the pool, and the length wraps as an `uint16_t`. -/
def pushPayload (cmd : Nat) (b : UInt8) : Parser PUnit := do
  let c ← Run.get
  let len ← Run.read .cmdIndex fun c => c.out.cmds[cmd]?.map NeoCmd.payloadLen
  if len ≥ neoParserPayloadMax then
    errAt .payloadExceeds
  else if c.out.payloadUsed ≥ payloadPoolSize then
    errAt .poolExhausted
  else do
    Run.update .poolIndex fun c =>
      if inside : c.out.payloadUsed < payloadPoolSize then
        some { c with out := { c.out with
          payloadPool := c.out.payloadPool.set c.out.payloadUsed b
          payloadUsed := c.out.payloadUsed + 1 } }
      else none
    modifyCmd cmd fun entry => { entry with payloadLen := (entry.payloadLen + 1) % 2 ^ 16 }

/-- `while(*p == '_') ++p;`. The NUL is not `_`, so the scan stops at it. -/
def skipBars : Text → Text
  | [] => []
  | ch :: rest => if ch = '_' then skipBars rest else ch :: rest

/-- Skip `_` at the cursor. -/
def skipBarsHere : Parser PUnit := Run.modify fun c => { c with p := skipBars c.p }

/-- The loop the three format groups share: decode and push a byte while the
group goes on. The value is `got`. -/
def groupLoop (more : Parser Bool) (decode : Parser UInt8) (cmd : Nat) : Nat → Nat → Parser Nat
  | 0, _ => Run.fault .fuel
  | fuel + 1, got => do
    let again ← more
    if again then do
      let b ← decode
      pushPayload cmd b
      groupLoop more decode cmd fuel (got + 1)
    else
      pure got

/-- `is_hex(*c->p)`. -/
def hexMore : Parser Bool := do
  let ch ← peek 0
  pure (isHex ch)

/-- A run of `_` belongs to a binary group only in front of a bit; otherwise the
source breaks out of its loop. -/
def binMore : Parser Bool := do
  let ch ← peek 0
  if isBin ch || ch == '_' then do
    let ahead ← Run.read .pastNul fun c => rd (skipBars c.p) 0
    pure (isBin ahead)
  else
    pure false

/-- `is_alnum_lat(*c->p)`. -/
def asciiMore : Parser Bool := do
  let ch ← peek 0
  pure (isAlnumLat ch)

/-- A group behind its selector: a loop over its bytes, and an error if there was
none. -/
def groupBody (more : Parser Bool) (decode : Parser UInt8) (empty : Msg) (cmd : Nat) :
    Parser PUnit := do
  let c ← Run.get
  let got ← groupLoop more decode cmd (c.p.length + 1) 0
  if got = 0 then errAt empty else pure ⟨⟩

/-- Hex bytes as far as the digits go. -/
def hexGroup (cmd : Nat) : Parser PUnit := groupBody hexMore decodeHexByte .emptyHex cmd

/-- Binary bytes, with `_` between them, as far as there are bits. -/
def binGroup (cmd : Nat) : Parser PUnit := groupBody binMore decodeBinByte .emptyBinary cmd

/-- How an ASCII group ends: at a `_`, which it consumes, at the NUL, or at a
command start. -/
def asciiEnd : Parser PUnit := do
  let ch ← peek 0
  if ch = '_' then
    advance
  else do
    let finished ← eos
    let next ← if finished then pure true else cmdStartHere
    if next then
      pure ⟨⟩  -- tolerate missing '_' at very end
    else
      errAt .asciiRunEnd

/-- Letters and digits, and then what may follow them. -/
def asciiGroup (cmd : Nat) : Parser PUnit := do
  groupBody asciiMore decodeAsciiByte .emptyAscii cmd
  asciiEnd

/-- The group opened by the selector `fc` at the cursor. -/
def formatGroup (cmd : Nat) (fc : UInt8) : Parser PUnit :=
  if fc ≠ 'h' ∧ fc ≠ 'b' ∧ fc ≠ 'a' then
    errAt .expectedSelector
  else do
    advance
    if fc = 'h' then
      hexGroup cmd
    else if fc = 'b' then
      binGroup cmd
    else
      asciiGroup cmd

/-- The payload of a write: groups with any `_` between them, up to the end of the line
or the start of another command. -/
def writePayloadLoop (cmd : Nat) : Nat → Parser PUnit
  | 0 => Run.fault .fuel
  | fuel + 1 => do
    let finished ← eos
    if finished then
      pure ⟨⟩
    else do
      let next ← cmdStartHere
      if next then
        pure ⟨⟩
      else do
        let fc ← peek 0
        if fc = '_' then do
          advance
          writePayloadLoop cmd fuel
        else do
          formatGroup cmd fc
          writePayloadLoop cmd fuel

/-- The payload of a write, which may be empty. -/
def parseWritePayload (cmd : Nat) : Parser PUnit := do
  let c ← Run.get
  writePayloadLoop cmd (c.p.length + 1)

/-- The internal address: one byte in any of the three formats, behind any `_`. -/
def parseOneByteAny : Parser UInt8 := do
  skipBarsHere
  let fc ← peek 0
  if fc ≠ 'h' ∧ fc ≠ 'b' ∧ fc ≠ 'a' then
    errAt .addrSelector
  else do
    advance
    let b ←
      if fc = 'h' then decodeHexByte
      else if fc = 'b' then decodeBinByte
      else decodeAsciiByte
    -- an ASCII byte may be closed by '_', the other formats leave it alone
    if fc = 'a' then do
      let ch ← peek 0
      if ch = '_' then do
        advance
        pure b
      else
        pure b
    else
      pure b

/-- The count's digit loop: at most three digits, so four rounds of it. -/
def countLoop : Nat → Nat → Nat → Parser (Nat × Nat)
  | 0, _, _ => Run.fault .fuel
  | fuel + 1, n, digits => do
    let ch ← peek 0
    if isHex ch && digits < 3 then do
      advance
      countLoop fuel (n <<< 4 ||| (hexVal ch).toNat) (digits + 1)
    else
      pure (n, digits)

/-- The display format named by a selector character. -/
def fmtOf (ch : UInt8) : NeoFmt :=
  if ch = 'h' then .hex else if ch = 'b' then .bin else .ascii

/-- The display format of a read of `n` bytes; a zero count may omit it. -/
def readFormat (cmd n : Nat) : Parser PUnit := do
  let ff ← peek 0
  if ff ≠ 'h' ∧ ff ≠ 'b' ∧ ff ≠ 'a' then
    if n = 0 then
      modifyCmd cmd fun entry => { entry with rdFmt := .none }
    else
      errAt .missingFormat
  else do
    modifyCmd cmd fun entry => { entry with rdFmt := fmtOf ff }
    advance

/-- The closing `_` of an explicit tail. -/
def readClose : Parser PUnit := do
  let ch ← peek 0
  if ch ≠ '_' then
    errAt .readEnd
  else
    advance

/-- The explicit tail behind its `h`. -/
def readExplicit (cmd : Nat) : Parser PUnit := do
  let (n, digits) ← countLoop 4 0 0
  if digits = 0 then
    errAt .missingCount
  else if n > readCountMax then
    errAt .countExceeds
  else do
    modifyCmd cmd fun entry => { entry with rdLen := n % 2 ^ 16 }
    readFormat cmd n
    readClose

/-- The tail of a read: left out at the end of the line or in front of another command,
or an `h` with a count. -/
def parseReadTail (cmd : Nat) : Parser PUnit := do
  skipBarsHere
  let finished ← eos
  let next ← if finished then pure true else cmdStartHere
  if next then
    modifyCmd cmd fun entry => { entry with rdLen := 0, rdFmt := .none }
  else do
    let ch ← peek 0
    if ch ≠ 'h' then
      errAt .expectedCount
    else do
      advance
      readExplicit cmd

/-- The odd control bytes read, the even ones write. -/
def isReadCtrl (ctrl : UInt8) : Bool := ctrl == 0xA1 || ctrl == 0xA3

/-- A command behind its `h`: it fills the table's entry `count`. -/
def cmdBody : Parser PUnit := do
  let ctrl ← decodeHexByte
  let c ← Run.get
  let cmd := c.out.count
  let isRead := isReadCtrl ctrl
  modifyCmd cmd fun entry => { entry with
    ctrlByte := ctrl
    payloadOff := c.out.payloadUsed % 2 ^ 16
    payloadLen := 0
    rdLen := 0
    rdFmt := .none
    kind := if isRead then .twiRead else .twiWrite }
  let addr ← parseOneByteAny
  modifyCmd cmd fun entry => { entry with internalAddr := addr }
  if isRead then
    parseReadTail cmd
  else
    parseWritePayload cmd
  countUp

/-- One command: there must be an entry left for it, and it must start as one. -/
def parseOneTwiCmd : Parser PUnit := do
  let c ← Run.get
  if c.out.count ≥ neoParserMaxCmds then
    errAt .tooManyCmds
  else do
    let start ← cmdStartHere
    if !start then
      errAt .commandStart
    else do
      advance
      cmdBody

/-- The end pointer behind a matched beginning. The NUL of a shorter string
differs from every character still to be matched. -/
def strPrefix : Text → Text → Option Text
  | s, [] => some s
  | [], _ :: _ => none
  | ch :: s, want :: wanted => if ch ≠ want then none else strPrefix s wanted

/-- Blanks and tabs, which the parser skips in front of a line and behind a special
command. -/
def isBlank (ch : UInt8) : Bool := ch == ' ' || ch == '\t'

/-- Skip blanks and tabs. -/
def skipBlanks : Text → Text
  | [] => []
  | ch :: rest => if isBlank ch then skipBlanks rest else ch :: rest

/-- Nothing but blanks is left. -/
def strtailEmpty (s : Text) : Bool := (skipBlanks s).isEmpty

/-- The eight digits of `out_`, read by index from `q`. -/
def outLoop (q : Text) : Nat → Nat → UInt8 → Parser UInt8
  | 0, _, v => pure v
  | left + 1, i, v => do
    let ch ← Run.read .pastNul fun _ => rd q i
    if ch ≠ '0' ∧ ch ≠ '1' then do
      moveTo (q.drop i)
      errAt .outDigits
    else
      outLoop q left (i + 1) (shiftBit v ch)

/-- `out->cmds[out->count++]` receives a special command. -/
def appendSpecial (change : NeoCmd → NeoCmd) : Parser PUnit := do
  let c ← Run.get
  modifyCmd c.out.count change
  countUp

/-- The special commands, tried one after the other on the text at the cursor. -/
def parseSpecial : Parser PUnit := do
  let c ← Run.get
  let p := c.p
  match strPrefix p (bytes "out_") with
  | some q => do
    let v ← outLoop q 8 0 0
    moveTo (q.drop 8)
    if !strtailEmpty (q.drop 8) then
      errAt .outExtra
    else
      appendSpecial fun entry => { entry with kind := .gpioOut, gpioByte := v }
  | none =>
    match (strPrefix p (bytes "inp")).filter strtailEmpty with
    | some q => do
      appendSpecial fun _ => { kind := .gpioIn }
      moveTo q
    | none =>
      match (strPrefix p (bytes "help")).filter strtailEmpty with
      | some q => do
        appendSpecial fun _ => { kind := .help }
        moveTo q
      | none => do
        let first ← peek 0
        if first = '?' ∧ strtailEmpty (p.drop 1) = true then do
          appendSpecial fun _ => { kind := .help }
          moveTo (p.drop 1)
        else
          errAt .unknownCommand

/-- The commands of a line, with any `_` between them and behind the last one. -/
def chainLoop : Nat → Parser PUnit
  | 0 => Run.fault .fuel
  | fuel + 1 => do
    let finished ← eos
    if finished then
      pure ⟨⟩
    else do
      skipBarsHere
      let trailing ← eos
      if trailing then
        pure ⟨⟩
      else do
        let start ← cmdStartHere
        if !start then
          errAt .garbage
        else do
          parseOneTwiCmd
          chainLoop fuel

/-- TWI chain or special command, chosen by the lookahead at the first character. -/
def parseLine : Parser PUnit := do
  let start ← cmdStartHere
  if start then do
    let c ← Run.get
    chainLoop (c.p.length + 1)
  else
    parseSpecial

/-- The return value and the record left behind. -/
def neoParseTransaction (line : Option CString) (out : NeoTxn) : Except Fault (Int × NeoTxn) :=
  let out := { out with
    count := 0
    payloadUsed := 0
    error := none
    errorPos := 0
    cmds := Vector.replicate neoParserMaxCmds {} }
  match line with
  | none => .ok (-1, { out with error := some .nullInput })
  | some line =>
    let line := skipBlanks line.chars
    if line.isEmpty then
      .ok (-1, { out with error := some .emptyTransaction })
    else
      match parseLine { base := line, p := line, out := out } with
      | .ok _ c => .ok (0, c.out)
      | .err c => .ok (-1, c.out)
      | .fault reason => .error reason

end NeoSfp
