import NeoSfp.Overfull

/-!
# Room for every payload

A payload byte takes at least one character of the line, so a line that the shell
can receive fills neither the payload of a command nor the pool of a transaction.
-/

namespace NeoSfp

/-- The two errors about room for payload. -/
def Msg.IsPayloadRoom (msg : Msg) : Prop := msg = .payloadExceeds ∨ msg = .poolExhausted

/-- A line of the usual length does not stop for want of room: the bytes it has decoded
are fewer than its characters. -/
theorem stopped_roomy {p : Text} {cs : List TwiCmd} {s : Stop} (short : p.length ≤ 1024)
    (stopped : scanLine p = .error (cs, s)) : ¬ s.msg.IsPayloadRoom := by
  intro room
  rcases stopped_kinds short stopped with syntactic | empty | exceeds | ⟨crowded, -⟩
  · rcases room with each | total
    · simp [each, Msg.syntactic] at syntactic
    · simp [total, Msg.syntactic] at syntactic
  · simp [empty, Msg.IsPayloadRoom] at room
  · simp [exceeds, Msg.IsPayloadRoom] at room
  · simp [crowded, Msg.IsPayloadRoom] at room

/-- A line of the usual length, accepted or rejected, never runs out of room for
payload. Every byte decoded has used up a character, and both stores hold more bytes
than such a line has characters. -/
theorem neoParseTransaction_payloadRoom (line : CString) (out : NeoTxn)
    (short : line.chars.length ≤ neoParserLineMax) :
    ∃ rc next, neoParseTransaction (some line) out = .ok (rc, next) ∧
      ∀ msg, next.error = some msg → ¬ msg.IsPayloadRoom := by
  have usual : (skipBlanks line.chars).length ≤ 1024 :=
    Nat.le_trans (skipBlanks_length line.chars) short
  have parses := neoParseTransaction_scan line out
  cases scanned : scanLine (skipBlanks line.chars) with
  | ok parsed =>
    rw [scanned] at parses
    obtain ⟨next, returned, left⟩ := parses
    have noError : next.error = none := by
      cases parsed with
      | chain cs => exact left.noError
      | special entry => exact left.noError
    exact ⟨0, next, returned, by simp [noError]⟩
  | error stopped =>
    obtain ⟨cs, s⟩ := stopped
    rw [scanned] at parses
    obtain ⟨next, returned, rejected⟩ := parses
    refine ⟨-1, next, returned, ?_⟩
    intro msg reported
    rw [rejected.error] at reported
    rw [← Option.some.inj reported]
    exact stopped_roomy usual scanned

/-- A line of two writes without payload. -/
theorem neoParseTransaction_payloadRoom_twoWrites : ∃ rc next,
    neoParseTransaction (some twoWrites) NeoTxn.zero = .ok (rc, next) ∧
      ∀ msg, next.error = some msg → ¬ msg.IsPayloadRoom :=
  neoParseTransaction_payloadRoom twoWrites NeoTxn.zero (by decide)

end NeoSfp
