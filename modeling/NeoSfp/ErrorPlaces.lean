import NeoSfp.Alphabet
import NeoSfp.Overfull

/-!
# Places of errors

A rejected line comes with the place of its error. What stands before that place
can still be continued to an accepted line, but the place is counted from the first
character that is not a blank, and not from the beginning of the line.
-/

namespace NeoSfp

/-- The commands of a record: its counted entries, each with its payload. -/
def NeoTxn.commands (txn : NeoTxn) : List (NeoCmd × List UInt8) :=
  (txn.cmds.toList.take txn.count).map fun cmd =>
    (cmd, (txn.payloadPool.toList.drop cmd.payloadOff).take cmd.payloadLen)

/-! ## Commands of a record -/

/-- The payloads of encoded commands, cut out of a pool that holds them. -/
theorem encodeAll_slices (pool : List UInt8) (off : Nat) (cs : List TwiCmd)
    (holds : (pool.drop off).take (payloadTotal cs) = payloads cs) :
    (encodeAll off cs).map (fun cmd => (cmd, (pool.drop cmd.payloadOff).take cmd.payloadLen)) =
      (encodeAll off cs).zip (cs.map TwiCmd.payload) := by
  induction cs generalizing off with
  | nil => rfl
  | cons c cs ih =>
    have split_ : payloads (c :: cs) = c.payload ++ payloads cs := List.flatMap_cons
    rw [payloadTotal_cons, split_] at holds
    have first : (pool.drop off).take c.payload.length = c.payload := by
      have front := congrArg (List.take c.payload.length) holds
      rwa [List.take_take, Nat.min_eq_left (Nat.le_add_right _ _), List.take_left] at front
    have others : (pool.drop (off + c.payload.length)).take (payloadTotal cs) = payloads cs := by
      have back := congrArg (List.drop c.payload.length) holds
      rwa [List.drop_take, Nat.add_sub_cancel_left, List.drop_drop, List.drop_left] at back
    have own : (c, (pool.drop (c.encode off).payloadOff).take (c.encode off).payloadLen) =
        (c, c.payload) := by
      cases c with
      | write ctrl addr bs => exact congrArg _ first
      | read ctrl addr n fmt => rfl
    rw [encodeAll, List.map_cons, List.map_cons, List.zip_cons_cons, ih _ others, (Prod.mk.inj own).2]

/-- The commands of an accepted record are those decoded, each with its own payload. -/
theorem decoded_commands {out : NeoTxn} {cs : List TwiCmd} (decoded : Decoded out cs) :
    out.commands = (encodeAll 0 cs).zip (cs.map TwiCmd.payload) := by
  have entries : out.cmds.toList.take out.count = encodeAll 0 cs := by
    rw [decoded.cmds, decoded.count, List.take_left' (encodeAll_length 0 cs)]
  rw [NeoTxn.commands, entries]
  refine encodeAll_slices _ 0 cs ?_
  rw [List.drop_zero, ← decoded.used, decoded.pool]

/-- The commands of a rejected record are those decoded before the error. -/
theorem rejected_commands {out : NeoTxn} {cs : List TwiCmd} {base : Text} {s : Stop}
    (rejected : Rejected out cs base s) :
    out.commands = (encodeAll 0 cs).zip (cs.map TwiCmd.payload) := by
  rw [NeoTxn.commands, rejected.count, rejected.cmds]
  refine encodeAll_slices _ 0 cs ?_
  rw [List.drop_zero, rejected.pool]

/-- The record of a special line holds one entry and no payload. -/
theorem special_commands {out : NeoTxn} {entry : NeoCmd} {p : Text} (special : Special out entry)
    (derived : SpecialLine p entry) : out.commands = [(entry, [])] := by
  have empty : entry.payloadLen = 0 := by cases derived <;> rfl
  rw [NeoTxn.commands, special.count, special.cmds]
  simp [empty]

/-! ## Leading blanks -/

/-- Blanks in front of a line are skipped with those that it has itself. -/
theorem skipBlanks_blanks {w : Text} (blanks : Blanks w) (p : Text) :
    skipBlanks (w ++ p) = skipBlanks p := by
  induction w with
  | nil => rfl
  | cons ch w ih =>
    obtain ⟨blank, others⟩ := List.forall_mem_cons.mp blanks
    have skipped : isBlank ch = true := by simpa [isBlank] using blank
    rw [List.cons_append, skipBlanks, if_pos skipped, ih others]

/-- Leading blanks change neither the code nor the message nor the commands. The
place of an error moves with them, if and only if there are none or there is no
error. Both lines are scanned from the same text, and the place is counted from where
that begins. -/
theorem neoParseTransaction_blanks (line x : CString) (w : Text) (out out' : NeoTxn)
    (blanks : Blanks w) (text : line.chars = w ++ x.chars) :
    ∃ rc next next', neoParseTransaction (some x) out = .ok (rc, next) ∧
      neoParseTransaction (some line) out' = .ok (rc, next') ∧
      next'.error = next.error ∧ next'.commands = next.commands ∧
      ((rc ≠ 0 → next'.errorPos = next.errorPos + w.length) ↔
        w = [] ∨ ∃ parsed, Line (skipBlanks x.chars) parsed) := by
  have own := neoParseTransaction_scan x out
  have other := neoParseTransaction_scan line out'
  rw [text, skipBlanks_blanks blanks] at other
  cases scanned : scanLine (skipBlanks x.chars) with
  | ok parsed =>
    rw [scanned] at own other
    obtain ⟨next, returned, left⟩ := own
    obtain ⟨next', returned', left'⟩ := other
    have derived := (scanLine_exact _ _).mp scanned
    refine ⟨0, next, next', returned, returned', ?_, ?_, ?_⟩
    · cases parsed with
      | chain cs => rw [left.noError, left'.noError]
      | special entry => rw [left.noError, left'.noError]
    · cases derived with
      | chain chain fits => rw [decoded_commands left, decoded_commands left']
      | special special => rw [special_commands left special, special_commands left' special]
    · constructor
      · intro _
        exact Or.inr ⟨parsed, derived⟩
      · intro _ rejected
        exact absurd rfl rejected
  | error stopped =>
    obtain ⟨cs, s⟩ := stopped
    rw [scanned] at own other
    obtain ⟨next, returned, rejected⟩ := own
    obtain ⟨next', returned', rejected'⟩ := other
    refine ⟨-1, next, next', returned, returned', ?_, ?_, ?_⟩
    · rw [rejected.error, rejected'.error]
    · rw [rejected_commands rejected, rejected_commands rejected']
    · rw [rejected.errorPos, rejected'.errorPos]
      constructor
      · intro moved
        left
        have same := moved (by decide)
        exact List.length_eq_zero_iff.mp (by omega)
      · rintro (rfl | ⟨parsed, derived⟩) _
        · exact (Int.add_zero _).symm
        · exact absurd derived (line_stopped scanned parsed)

/-- A line that is rejected nowhere, behind a blank: nothing of the record changes. -/
theorem neoParseTransaction_blanks_twoWrites : ∃ rc next next',
    neoParseTransaction (some twoWrites) NeoTxn.zero = .ok (rc, next) ∧
      neoParseTransaction (some (CString.ofBuffer (bytes " hA0h01hA2h02"))) NeoTxn.zero =
        .ok (rc, next') ∧
      next'.error = next.error ∧ next'.commands = next.commands ∧
      ((rc ≠ 0 → next'.errorPos = next.errorPos + (bytes " ").length) ↔
        bytes " " = [] ∨ ∃ parsed, Line (skipBlanks twoWrites.chars) parsed) :=
  neoParseTransaction_blanks (CString.ofBuffer (bytes " hA0h01hA2h02")) twoWrites (bytes " ")
    NeoTxn.zero NeoTxn.zero (by simp [Blanks, bytes]) rfl

/-- The line `z`, which is no command. -/
def unknownLine : CString := CString.ofBuffer (bytes "z")
/-- The same line behind a blank. -/
def indentedLine : CString := CString.ofBuffer (bytes " z")

/-- The line is rejected at its first character. -/
theorem unknownLine_stopped :
    scanLine (bytes "z") = .error ([], ⟨.unknownCommand, bytes "z"⟩) := rfl

/-- Both lines are rejected at place 0, though the error stands at 1 in the second. -/
theorem indentedLine_place : indentedLine.chars = bytes " " ++ unknownLine.chars ∧ ∃ next next',
    neoParseTransaction (some unknownLine) NeoTxn.zero = .ok (-1, next) ∧
      neoParseTransaction (some indentedLine) NeoTxn.zero = .ok (-1, next') ∧
      next.errorPos = 0 ∧ next'.errorPos = 0 := by
  have own := neoParseTransaction_scan unknownLine NeoTxn.zero
  have other := neoParseTransaction_scan indentedLine NeoTxn.zero
  rw [show skipBlanks unknownLine.chars = bytes "z" from rfl, unknownLine_stopped] at own
  rw [show skipBlanks indentedLine.chars = bytes "z" from rfl, unknownLine_stopped] at other
  obtain ⟨next, returned, rejected⟩ := own
  obtain ⟨next', returned', rejected'⟩ := other
  exact ⟨rfl, next, next', returned, returned', rejected.errorPos.trans (by decide),
    rejected'.errorPos.trans (by decide)⟩

/-! ## Viable prefixes -/

/-- Behind a chain that is read in front of anything, a command makes a longer chain. -/
theorem chain_longer {u q p : Text} {cs : List TwiCmd} {c : TwiCmd} (takes : Takes Segment u cs)
    (start : startsCmd (u ++ q) = true) (derived : Cmd p c []) : Chain (u ++ p) (cs ++ [c]) := by
  refine chain_iff.mpr ⟨?_, segment_append (takes p) (segment_cons derived (segment_nil (.done [])))⟩
  cases cs with
  | cons d cs => exact startsCmd_append (chain_start (takes_chain (by simp) start takes)) p
  | nil =>
    -- nothing but `_` could stand in front of the first command
    obtain ⟨r, nothing, bars⟩ := takes []
    cases nothing with
    | done =>
      have passed := skipBars_bars bars
      cases u with
      | nil => exact cmd_start derived
      | cons ch u =>
        have same : ch = byte 'h' := startsCmd_selector start
        rw [List.append_nil, same, skipBars_cons u (by simp)] at passed
        simp [skipBars] at passed

/-- A line of the usual length that is rejected, but not for being empty or for a
count, can be continued from the place of the error. -/
theorem scanLine_viable {p : Text} {cs : List TwiCmd} {s : Stop} (short : p.length ≤ 1024)
    (stopped : scanLine p = .error (cs, s)) (some : s.msg ≠ .emptyTransaction)
    (small : s.msg ≠ .countExceeds) : ∃ w v parsed, p = w ++ s.rest ∧ Line (w ++ v) parsed := by
  by_cases start : startsCmd p = true
  · obtain ⟨u, q, rfl, takes, fits, stops⟩ := chain_stops start short (scanLine_stopped start stopped)
    have length := segment_length (takes q)
    have whole : cs ≠ [] → Line (u ++ []) (.chain cs) := by
      intro nonempty
      rw [List.append_nil]
      exact .chain (takes_chain nonempty start takes) fits
    rcases stops with ⟨rfl, nonempty⟩ | ⟨rfl, full, -⟩ | ⟨free, exceeds | repairable⟩
    · exact ⟨u, [], _, rfl, whole nonempty⟩
    · have nonempty : cs ≠ [] := by
        rintro rfl
        simp at full
      exact ⟨u, [], _, rfl, whole nonempty⟩
    · exact absurd exceeds small
    · obtain ⟨-, w, v, c, rfl, command, bound⟩ := repairable
      have bound : c.payload.length + 3 ≤ w.length := bound
      have inside : w.length ≤ (w ++ s.rest).length := by simp
      have single : Fits 0 0 [c] :=
        { count := by simp
          each := by
            simp only [List.mem_singleton, forall_eq]
            omega
          total := by
            simp only [payloadTotal_cons, payloadTotal_nil]
            omega }
      have room : Fits 0 0 (cs ++ [c]) := by
        refine fits_append fits single free ?_
        simp only [payloadTotal_cons, payloadTotal_nil]
        omega
      refine ⟨u ++ w, v, .chain (cs ++ [c]), by rw [List.append_assoc], ?_⟩
      rw [List.append_assoc]
      exact .chain (chain_longer takes start command) room
  · rcases scanLine_other (by simpa using start) stopped with ⟨-, rfl⟩ | failed
    · exact absurd rfl some
    · obtain ⟨-, w, v, entry, text, line, -⟩ := scanSpecial_repairable failed
      exact ⟨w, v, .special entry, text, .special line⟩

/-- A line that has a meaning begins with it, so no blank precedes the derivation. -/
theorem line_unindented {p : Text} {parsed : Parsed} (derived : Line p parsed) : skipBlanks p = p := by
  cases derived with
  | chain chain fits => exact skipBlanks_start (chain_start chain)
  | special special => cases special <;> rfl

/-- What has a meaning is a string that is accepted, because no character of the grammar
is a NUL. -/
theorem line_string {p : Text} {parsed : Parsed} (derived : Line p parsed) :
    ∃ line : CString, line.chars = p ∧
      ∀ out, ∃ next, neoParseTransaction (some line) out = .ok (0, next) := by
  have nulFree : 0 ∉ p := by
    intro member
    rcases line_spells derived 0 member with fine | nothing
    · simp [allowed, isAlnumLat, byte] at fine
    · simp at nothing
  refine ⟨⟨p, nulFree⟩, rfl, ?_⟩
  intro out
  have meaning : Line (skipBlanks p) parsed := by rwa [line_unindented derived]
  have derived : Line (skipBlanks (CString.mk p nulFree).chars) parsed := meaning
  obtain ⟨next, accepted, -⟩ := line_accepted out derived
  exact ⟨next, accepted⟩

/-- The characters in front of a reported place begin some accepted line, unless the
line is empty or a count is too large. The place of an error in a line of the usual
length is an `int`, so it is a place of the line. What was read up to the place is
completed: the command in which the scan stopped is repaired behind those before it. -/
theorem neoParseTransaction_viable (line : CString) (out next : NeoTxn) (rc : Int)
    (short : line.chars.length ≤ neoParserLineMax)
    (unindented : ∀ ch rest, line.chars = ch :: rest → isBlank ch = false)
    (returned : neoParseTransaction (some line) out = .ok (rc, next)) (rejected : rc ≠ 0)
    (notEmpty : next.error ≠ some .emptyTransaction)
    (notCount : next.error ≠ some .countExceeds) :
    ∃ place : Nat, next.errorPos = place ∧ place ≤ line.chars.length ∧ ∃ longer : CString,
      line.chars.take place <+: longer.chars ∧
        ∀ out', ∃ next', neoParseTransaction (some longer) out' = .ok (0, next') := by
  have same : skipBlanks line.chars = line.chars := by
    cases text : line.chars with
    | nil => rfl
    | cons ch rest => rw [skipBlanks, if_neg (by simp [unindented ch rest text])]
  have parses := neoParseTransaction_scan line out
  rw [same] at parses
  cases scanned : scanLine line.chars with
  | ok parsed =>
    rw [scanned] at parses
    obtain ⟨next', accepted, -⟩ := parses
    rw [returned] at accepted
    cases accepted
    exact absurd rfl rejected
  | error stopped =>
    obtain ⟨cs, s⟩ := stopped
    rw [scanned] at parses
    obtain ⟨next', failed, record⟩ := parses
    rw [returned] at failed
    cases failed
    rw [record.error] at notEmpty notCount
    obtain ⟨w, v, parsed, text, derived⟩ := scanLine_viable short scanned
      (fun empty => notEmpty (congrArg _ empty)) (fun large => notCount (congrArg _ large))
    obtain ⟨longer, chars, accepted⟩ := line_string derived
    have split_ : line.chars.length = w.length + s.rest.length := by rw [text, List.length_append]
    have inside : w.length < 2 ^ 31 := by
      rw [neoParserLineMax] at short
      omega
    have place : next.errorPos = w.length := by
      rw [record.errorPos, split_, Nat.cast_add, Int.add_sub_cancel, wrapInt_small _ inside]
    refine ⟨w.length, place, by omega, longer, ?_, accepted⟩
    rw [chars, text, List.take_left]
    exact List.prefix_append w v

/-- The line `hA0h01h02hA2x5`: behind a write with a payload byte, a command without
an internal address. -/
def brokenChain : CString := CString.ofBuffer (bytes "hA0h01h02hA2x5")

/-- The second command is read up to its `x`, behind a first one that is complete. -/
theorem brokenChain_stopped :
    scanLine brokenChain.chars = .error ([.write 0xA0 0x01 [0x02]], ⟨.addrSelector, bytes "x5"⟩) := by
  have first : Cmds brokenChain.chars [.write 0xA0 0x01 [0x02]] (bytes "hA2x5") :=
    .cmd (.done _) (writeByte_derived (bytes "hA2x5")) (.done _)
  have fits : Fits 0 0 [.write 0xA0 0x01 [0x02]] :=
    { count := by decide, each := by decide, total := by decide }
  have behind : skipBars (bytes "hA2x5") = byte 'h' :: bytes "A2x5" := rfl
  have stopped : scanCmd 1 1 (byte 'h' :: bytes "A2x5") = .error ⟨.addrSelector, bytes "x5"⟩ := rfl
  have second : scanChain 1 1 (bytes "hA2x5") = ([], some ⟨.addrSelector, bytes "x5"⟩) := by
    rw [scanChain_step 1 1 behind, stopped]
    rfl
  have whole := scanChain_cmds first (Or.inr rfl) 0 0 fits
  rw [show payloadTotal [.write 0xA0 0x01 [0x02]] = 1 from rfl] at whole
  rw [scanLine_start rfl, whole]
  simp [second]

/-- Its error is reported at the `x`, behind twelve characters. -/
theorem neoParseTransaction_viable_brokenChain : ∃ next,
    neoParseTransaction (some brokenChain) NeoTxn.zero = .ok (-1, next) ∧
      next.error = some .addrSelector ∧ next.errorPos = 12 ∧ ∃ longer : CString,
        bytes "hA0h01h02hA2" <+: longer.chars ∧
          ∀ out', ∃ next', neoParseTransaction (some longer) out' = .ok (0, next') := by
  have parses := neoParseTransaction_scan brokenChain NeoTxn.zero
  rw [show skipBlanks brokenChain.chars = brokenChain.chars from rfl, brokenChain_stopped] at parses
  obtain ⟨next, returned, rejected⟩ := parses
  have unindented : ∀ ch rest, brokenChain.chars = ch :: rest → isBlank ch = false := by
    intro ch rest text
    cases text
    rfl
  obtain ⟨place, same, -, longer, begins, accepted⟩ := neoParseTransaction_viable brokenChain
    NeoTxn.zero next (-1) (by decide) unindented returned (by decide) (by simp [rejected.error])
    (by simp [rejected.error])
  have twelve : next.errorPos = 12 := rejected.errorPos.trans (by decide)
  obtain rfl : place = 12 := by omega
  exact ⟨next, returned, rejected.error, twelve, longer, begins, accepted⟩

end NeoSfp
