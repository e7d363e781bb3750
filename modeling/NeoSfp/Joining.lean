import NeoSfp.GrammarLines
import NeoSfp.ParserGrammar

/-!
# Joining lines with `_`

A chain stays derivable when a `_` and more text follow it, whatever state the
parser is in at its end. Behind the chain, the scan of the second line runs with
larger counters, which it notices only by running out of room. So the parser
maps joined lines to joined records.
-/

namespace NeoSfp

/-! ## Derivations in longer texts -/

/-- A nonterminal that does not notice a `_` far behind it. -/
def Extends {α : Type} (item : Nonterminal α) : Prop :=
  ∀ p value q, item p value q →
    ∀ more : Text, item (p ++ byte '_' :: more) value (q ++ byte '_' :: more)

/-- More text behind a run of `_` changes nothing about the run. -/
theorem bars_extend {p q : Text} (bars : Bars p q) (more : Text) : Bars (p ++ more) (q ++ more) := by
  induction bars with
  | done p => exact .done _
  | bar bars ih => exact .bar ih

/-- More text behind a hex byte changes nothing about it. -/
theorem hexByte_extends : Extends HexByte := by
  intro p value q derived more
  cases derived with
  | pair q xDigit yDigit => exact .pair _ xDigit yDigit

/-- More text behind bits changes nothing about them. By induction on the derivation. -/
theorem bits_extend {p q ds : Text} (bits : Bits p ds q) (more : Text) :
    Bits (p ++ more) ds (q ++ more) := by
  induction bits with
  | done p => exact .done _
  | bit bars digit bits ih => exact .bit (bars_extend bars more) digit ih

/-- More text behind a binary byte changes nothing about it. -/
theorem octet_extends : Extends Octet := by
  intro p value q derived more
  cases derived with
  | eight bits length => exact .eight (bits_extend bits _) length

/-- More text behind an ASCII byte changes nothing about it. -/
theorem asciiByte_extends : Extends AsciiByte := by
  intro p value q derived more
  cases derived with
  | alnum q member => exact .alnum _ member

/-- More text behind an address changes nothing about it, in any of the three forms. -/
theorem iaddr_extends : Extends IAddr := by
  intro p value q derived more
  cases derived with
  | hex bars byte => exact .hex (bars_extend bars _) (hexByte_extends _ _ _ byte more)
  | bin bars byte => exact .bin (bars_extend bars _) (octet_extends _ _ _ byte more)
  | ascii bars byte => exact .ascii (bars_extend bars _) (asciiByte_extends _ _ _ byte more)

/-- More text behind a repetition changes nothing about it, if that holds of its
item. -/
theorem plus_extends {α : Type} {item : Nonterminal α} (extends_ : Extends item) :
    Extends (Plus item) := by
  intro p values q derived more
  induction derived with
  | one first => exact .one (extends_ _ _ _ first more)
  | more first others ih => exact .more (extends_ _ _ _ first more) ih

/-- An ASCII run that the end of the line closed is closed by the `_`. -/
theorem payload_extends : Extends Payload := by
  intro p bs q derived more
  induction derived with
  | done p => exact .done _
  | bar derived ih => exact .bar ih
  | hex first ordinary derived ih =>
    exact .hex (plus_extends hexByte_extends _ _ _ first more) ordinary ih
  | bin first derived ih => exact .bin (plus_extends octet_extends _ _ _ first more) ih
  | ascii first closed derived ih =>
    refine .ascii (plus_extends asciiByte_extends _ _ _ first more) ?_ ih
    right
    rcases closed with finished | bar
    · rw [finished]
      rfl
    · rw [List.head?_append, bar]
      rfl

/-- A `_` far behind the tail of a read changes nothing about it. -/
theorem tail_extends : Extends Tail := by
  intro p value q derived more
  cases derived with
  | empty => exact .empty _
  | count q count letter =>
    rw [List.cons_append, List.append_assoc]
    exact .count _ count letter
  | zero q count zero =>
    rw [List.cons_append, List.append_assoc]
    exact .zero _ count zero

/-- A `_` far behind a command changes nothing about it, whether it writes or reads. -/
theorem cmd_extends : Extends Cmd := by
  intro p c q derived more
  cases derived with
  | write named iaddr payload =>
    exact .write named (iaddr_extends _ _ _ iaddr more) (payload_extends _ _ _ payload more)
  | read named iaddr bars tail =>
    exact .read named (iaddr_extends _ _ _ iaddr more) (bars_extend bars _)
      (tail_extends _ _ _ tail more)

/-- A `_` far behind commands changes nothing about them. By induction on the
commands. -/
theorem cmds_extends : Extends Cmds := by
  intro p cs q derived more
  induction derived with
  | done p => exact .done _
  | cmd bars first others ih =>
    exact .cmd (bars_extend bars _) (cmd_extends _ _ _ first more) ih

/-- Behind a chain and a `_`, another command line is scanned with the counters
the chain leaves. -/
theorem scanChain_join {p q : Text} {cs : List TwiCmd} (derived : Chain p cs)
    (fits : Fits 0 0 cs) (start : startsCmd q = true) :
    scanChain 0 0 (p ++ byte '_' :: q) =
      (cs ++ (scanChain cs.length (payloadTotal cs) q).1,
        (scanChain cs.length (payloadTotal cs) q).2) := by
  cases derived with
  | @line r s c others first more bars =>
    have extended : Cmds (p ++ byte '_' :: q) (c :: others) (s ++ byte '_' :: q) :=
      .cmd (.done _) (cmd_extends _ _ _ first q) (cmds_extends _ _ _ more q)
    have behind : Bars (s ++ byte '_' :: q) q := bars_trans (bars_extend bars _) (.bar (.done q))
    have follow : Follow (s ++ byte '_' :: q) := by
      right
      rw [skipBars_bars behind, startsCmd_skip start]
      exact start
    rw [scanChain_cmds extended follow 0 0 fits, scanChain_bars _ _ behind, Nat.zero_add,
      Nat.zero_add]

/-! ## Larger counters -/

/-- The errors of a record without room. -/
def Msg.IsCapacity (msg : Msg) : Prop := msg = .tooManyCmds ∨ msg = .poolExhausted

/-- The run with the larger counters gives the same, or stops for want of room. -/
def Same {α : Type} (larger smaller : Except Stop α) : Prop :=
  larger = smaller ∨ ∃ s, larger = .error s ∧ s.msg.IsCapacity

/-- With more bytes in the pool the same stores succeed, or fail for want of room. By
induction on the bytes. -/
theorem capacity_shift (len used used' : Nat) (items : List (UInt8 × Text)) (more : used' ≤ used) :
    Same (capacity len used items) (capacity len used' items) := by
  induction items generalizing len used used' with
  | nil => exact Or.inl rfl
  | cons item items ih =>
    obtain ⟨b, rest⟩ := item
    by_cases full : len ≥ neoParserPayloadMax
    · left
      simp only [capacity, full, if_true]
    · by_cases exhausted : used ≥ payloadPoolSize
      · right
        exact ⟨⟨.poolExhausted, rest⟩, by simp [capacity, full, exhausted], Or.inr rfl⟩
      · have free : ¬ used' ≥ payloadPoolSize := by omega
        simp only [capacity, full, exhausted, free, if_false]
        exact ih (len + 1) (used + 1) (used' + 1) (Nat.succ_le_succ more)

/-- With more bytes in the pool a command body is scanned alike, or stops for want of
room. -/
theorem scanCmdBody_shift (used used' : Nat) (p : Text) (more : used' ≤ used) :
    Same (scanCmdBody used p) (scanCmdBody used' p) := by
  unfold scanCmdBody
  split
  · exact Or.inl rfl
  · split
    · exact Or.inl rfl
    · next ctrl q first addr r second =>
      split
      · exact Or.inl rfl
      · rcases capacity_shift 0 used used' (scanPayload r).items more with same | ⟨s, stopped, full⟩
        · rw [same]
          exact Or.inl rfl
        · rw [stopped]
          exact Or.inr ⟨s, rfl, full⟩

/-- With larger counters a command is scanned alike, or stops for want of room. -/
theorem scanCmd_shift (count count' used used' : Nat) (p : Text) (further : count' ≤ count)
    (more : used' ≤ used) : Same (scanCmd count used p) (scanCmd count' used' p) := by
  unfold scanCmd
  by_cases full : count ≥ neoParserMaxCmds
  · right
    exact ⟨⟨.tooManyCmds, p⟩, by simp [full], Or.inl rfl⟩
  · have free : ¬ count' ≥ neoParserMaxCmds := by omega
    rw [if_neg full, if_neg free]
    split
    · exact Or.inl rfl
    · exact scanCmdBody_shift used used' _ more

/-- Induct over the scan with the smaller counters: the two runs stay at the same
place until one of them has no room. -/
theorem scanChain_shift (count count' used used' : Nat) (p : Text) (further : count' ≤ count)
    (more : used' ≤ used) :
    scanChain count used p = scanChain count' used' p ∨
      ∃ s, (scanChain count used p).2 = some s ∧ s.msg.IsCapacity := by
  fun_induction scanChain count' used' p generalizing count used with
  | case1 count' used' p behind =>
    left
    exact scanChain_end count used behind
  | case2 count' used' p ch rest behind start s stopped =>
    rw [scanChain_step count used behind, if_pos start]
    rcases scanCmd_shift count count' used used' (ch :: rest) further more with
      same | ⟨t, full, capacity⟩
    · left
      rw [same, stopped]
    · right
      rw [full]
      exact ⟨t, rfl, capacity⟩
  | case3 count' used' p ch rest behind start cmd q scanned others ih =>
    rw [scanChain_step count used behind, if_pos start]
    rcases scanCmd_shift count count' used used' (ch :: rest) further more with
      same | ⟨t, full, capacity⟩
    · rw [same, scanned]
      rcases ih (count + 1) (used + cmd.payload.length) (by omega) (by omega) with
        same | ⟨s, stopped, capacity⟩
      · left
        simp only [same, others]
      · right
        exact ⟨s, stopped, capacity⟩
    · right
      rw [full]
      exact ⟨t, rfl, capacity⟩
  | case4 count' used' p ch rest behind start =>
    left
    rw [scanChain_step count used behind, if_neg start]

/-! ## Joined lines and records -/

/-- The `_` between two lines does not end the string. -/
theorem byte_bar_nonzero : byte '_' ≠ 0 := by simp

/-- Two lines with a `_` between them. -/
def CString.join (first second : CString) : CString where
  chars := first.chars ++ byte '_' :: second.chars
  nulFree := by
    simp only [List.mem_append, List.mem_cons, not_or]
    exact ⟨first.nulFree, byte_bar_nonzero.symm, second.nulFree⟩

/-- The record holds the commands of two others one after the other: the same
entries and bytes, the offsets of the second moved behind the first's bytes. -/
structure Joined (out first second : NeoTxn) : Prop where
  count : out.count = first.count + second.count
  front : ∀ i < first.count, out.cmds[i]? = first.cmds[i]?
  back : ∀ i < second.count, out.cmds[first.count + i]? = (second.cmds[i]?).map fun cmd =>
    { cmd with payloadOff := cmd.payloadOff + first.payloadUsed }
  used : out.payloadUsed = first.payloadUsed + second.payloadUsed
  frontBytes : ∀ i < first.payloadUsed, out.payloadPool[i]? = first.payloadPool[i]?
  backBytes : ∀ i < second.payloadUsed,
    out.payloadPool[first.payloadUsed + i]? = second.payloadPool[i]?

/-- The entry of a command further back in the pool differs in its offset only. -/
theorem encode_shift (c : TwiCmd) (off more : Nat) :
    c.encode (off + more) =
      { c.encode off with payloadOff := (c.encode off).payloadOff + more } := by
  cases c <;> rfl

/-- Entries further back in the pool differ in their offsets only. By induction on the
commands. -/
theorem encodeAll_shift (off more : Nat) (cs : List TwiCmd) :
    encodeAll (off + more) cs =
      (encodeAll off cs).map fun cmd => { cmd with payloadOff := cmd.payloadOff + more } := by
  induction cs generalizing off with
  | nil => rfl
  | cons c cs ih =>
    rw [encodeAll, encodeAll, List.map_cons, ← ih, encode_shift]
    congr 2
    omega

/-- An entry that counts is that of its command. -/
theorem decoded_entry {out : NeoTxn} {cs : List TwiCmd} (decoded : Decoded out cs) {i : Nat}
    (inside : i < cs.length) : out.cmds[i]? = (encodeAll 0 cs)[i]? := by
  rw [← Vector.getElem?_toList, decoded.cmds, List.getElem?_append_left (by simpa using inside)]

/-- A byte of the pool that is used belongs to the payloads, in their order. -/
theorem decoded_byte {out : NeoTxn} {cs : List TwiCmd} (decoded : Decoded out cs) {i : Nat}
    (inside : i < out.payloadUsed) : out.payloadPool[i]? = (payloads cs)[i]? := by
  rw [← Vector.getElem?_toList, ← decoded.pool, List.getElem?_take_of_lt inside]

/-- A record that holds the commands of two others is the two records joined. -/
theorem decoded_joined {out first second : NeoTxn} {before after : List TwiCmd}
    (joined : Decoded out (before ++ after)) (left : Decoded first before)
    (right : Decoded second after) : Joined out first second := by
  have size := (encodeAll_length 0 before)
  have total := payloads_length before
  refine
    { count := ?_
      front := ?_
      back := ?_
      used := ?_
      frontBytes := ?_
      backBytes := ?_ }
  · rw [joined.count, left.count, right.count, List.length_append]
  · intro i inside
    rw [left.count] at inside
    rw [decoded_entry left inside, decoded_entry joined (by rw [List.length_append]; omega),
      encodeAll_append, List.getElem?_append_left (by omega)]
  · intro i inside
    rw [right.count] at inside
    rw [decoded_entry right inside, left.count,
      decoded_entry joined (by rw [List.length_append]; omega), encodeAll_append,
      List.getElem?_append_right (by omega), size, Nat.add_sub_cancel_left, encodeAll_shift,
      List.getElem?_map, left.used]
  · rw [joined.used, left.used, right.used, payloadTotal_append]
  · intro i inside
    have further : i < out.payloadUsed := by
      rw [joined.used, payloadTotal_append, ← left.used]
      omega
    rw [decoded_byte left inside, decoded_byte joined further, payloads_append,
      List.getElem?_append_left (by rw [total, ← left.used]; exact inside)]
  · intro i inside
    have further : first.payloadUsed + i < out.payloadUsed := by
      rw [joined.used, payloadTotal_append, ← left.used, ← right.used]
      omega
    rw [decoded_byte right inside, decoded_byte joined further, payloads_append, left.used,
      List.getElem?_append_right (by omega), total, Nat.add_sub_cancel_left]

/-- In front of a command there is no blank to skip. -/
theorem skipBlanks_start {p : Text} (start : startsCmd p = true) : skipBlanks p = p := by
  cases p with
  | nil => rfl
  | cons ch rest =>
    rw [startsCmd_selector start]
    simp [skipBlanks, isBlank]

/-- A line that begins like a command is scanned as a chain, since no special command
begins so. -/
theorem scanLine_start {p : Text} (start : startsCmd p = true) :
    scanLine p = match scanChain 0 0 p with
      | (cs, none) => .ok (.chain cs)
      | (cs, some s) => .error (cs, s) := by
  have nonempty : p ≠ [] := by
    intro empty
    simp [empty, startsCmd] at start
  unfold scanLine
  obtain ⟨cs, ended⟩ := scanChain 0 0 p
  cases ended <;> simp [nonempty, start]

/-- A line that begins like a command and is rejected is a chain that stops. -/
theorem scanLine_stopped {p : Text} {cs : List TwiCmd} {s : Stop} (start : startsCmd p = true)
    (stopped : scanLine p = .error (cs, s)) : scanChain 0 0 p = (cs, some s) := by
  rw [scanLine_start start] at stopped
  split at stopped
  · simp at stopped
  · next ds t scanned =>
    obtain ⟨rfl, rfl⟩ := Prod.mk.inj (Except.error.inj stopped)
    exact scanned

/-- A line that begins like a command still does with more text behind it. -/
theorem startsCmd_append {p : Text} (start : startsCmd p = true) (more : Text) :
    startsCmd (p ++ more) = true := by
  obtain ⟨d, member, rest, text⟩ := (startsCmd_iff p).mp start
  rw [startsCmd_iff, text]
  exact ⟨d, member, rest ++ more, rfl⟩

/-- How a line's scan shows in the call's result: the code, and the record with the
commands decoded up to the end or to the error. -/
theorem parse_chain (line : CString) (out : NeoTxn) (start : startsCmd line.chars = true) :
    match scanChain 0 0 line.chars with
    | (cs, none) => ∃ next, neoParseTransaction (some line) out = .ok (0, next) ∧ Decoded next cs
    | (cs, some s) => ∃ next, neoParseTransaction (some line) out = .ok (-1, next) ∧
        Rejected next cs line.chars s := by
  have parses := neoParseTransaction_scan line out
  rw [skipBlanks_start start, scanLine_start start] at parses
  generalize scanChain 0 0 line.chars = scanned at parses ⊢
  obtain ⟨cs, ended⟩ := scanned
  cases ended with
  | none => exact parses
  | some s => exact parses

/-- A stop in the second line is reported further back by the first line and the `_`. -/
theorem rejected_joined {joined right : NeoTxn} {all after : List TwiCmd} {first second : Text}
    {s : Stop} (both : Rejected joined all (first ++ byte '_' :: second) s)
    (rejected : Rejected right after second s) :
    joined.error = right.error ∧
      joined.errorPos = wrapInt (right.errorPos + first.length + 1) := by
  have place : ((first ++ byte '_' :: second).length - s.rest.length : Int) =
      second.length - s.rest.length + (first.length + 1) := by
    rw [List.length_append, List.length_cons]
    omega
  refine ⟨both.error.trans rejected.error.symm, ?_⟩
  rw [both.errorPos, rejected.errorPos, place, add_assoc, wrapInt_add]

/-- Parsing a joined line fails for want of room, or has the second line's outcome:
acceptance with both lines' commands, or the same message, further back by the first
line and the `_`. The place is what `int` makes of the sum. The scan of the second line
runs in step with a scan of it on its own, with larger counters, which it notices only
where there is no room. -/
theorem neoParseTransaction_join (first second : CString) (out out' out'' left right : NeoTxn)
    (rc : Int) (accepted : neoParseTransaction (some first) out = .ok (0, left))
    (start : CmdStart first.chars) (follows : CmdStart second.chars)
    (parsed : neoParseTransaction (some second) out' = .ok (rc, right)) :
    ∃ rc' next, neoParseTransaction (some (first.join second)) out'' = .ok (rc', next) ∧
      ((rc' = -1 ∧ ∃ msg, next.error = some msg ∧ msg.IsCapacity) ∨
        (rc' = rc ∧ (rc = 0 → next.error = none ∧ Joined next left right) ∧
          (rc ≠ 0 → next.error = right.error ∧
            next.errorPos = wrapInt (right.errorPos + first.chars.length + 1)))) := by
  rw [← startsCmd_iff] at start follows
  have parsesFirst := parse_chain first out start
  have parsesSecond := parse_chain second out' follows
  have parsesBoth := parse_chain (first.join second) out'' (startsCmd_append start _)
  cases scanned : scanChain 0 0 first.chars with
  | mk before ended =>
    rw [scanned] at parsesFirst
    cases ended with
    | some s =>
      obtain ⟨next, returned, -⟩ := parsesFirst
      rw [accepted] at returned
      simp at returned
    | none =>
      obtain ⟨next, returned, decoded⟩ := parsesFirst
      rw [accepted] at returned
      cases returned
      obtain ⟨derived, fits⟩ := (scanChain_exact _ start before).mp scanned
      have both := scanChain_join derived fits follows
      rw [show (first.join second).chars = first.chars ++ byte '_' :: second.chars from rfl,
        both] at parsesBoth
      rcases scanChain_shift before.length 0 (payloadTotal before) 0 second.chars (Nat.zero_le _)
        (Nat.zero_le _) with same | ⟨s, stopped, full⟩
      · rw [same] at parsesBoth
        cases behind : scanChain 0 0 second.chars with
        | mk after ended =>
          rw [behind] at parsesSecond parsesBoth
          cases ended with
          | none =>
            obtain ⟨next, returned, decodedAfter⟩ := parsesSecond
            rw [parsed] at returned
            cases returned
            obtain ⟨joined, returned, decodedBoth⟩ := parsesBoth
            refine ⟨0, joined, returned, Or.inr ⟨rfl, ?_, ?_⟩⟩
            · intro _
              exact ⟨decodedBoth.noError, decoded_joined decodedBoth decoded decodedAfter⟩
            · intro rejected
              exact absurd rfl rejected
          | some s =>
            obtain ⟨next, returned, rejected⟩ := parsesSecond
            rw [parsed] at returned
            cases returned
            obtain ⟨joined, returned, rejectedBoth⟩ := parsesBoth
            refine ⟨-1, joined, returned, Or.inr ⟨rfl, ?_, ?_⟩⟩
            · intro zero
              exact absurd zero (by decide)
            · intro _
              exact rejected_joined rejectedBoth rejected
      · rw [stopped] at parsesBoth
        obtain ⟨joined, returned, rejected⟩ := parsesBoth
        exact ⟨-1, joined, returned, Or.inl ⟨rfl, s.msg, rejected.error, full⟩⟩

/-- The line joined to itself has its commands twice. -/
theorem writeRead_twice : Line (writeRead.join writeRead).chars (.chain (writeReadCmds ++ writeReadCmds)) :=
  .chain
    (.line (writeTwo_derived (bytes "_hA1h50_h2h_" ++ byte '_' :: writeRead.chars))
      (.cmd (.bar (.done _)) (readTwo_derived (byte '_' :: writeRead.chars))
        (.cmd (.bar (.done _)) (writeTwo_derived (bytes "_hA1h50_h2h_"))
          (.cmd (.bar (.done _)) (readTwo_derived []) (.done []))))
      (.done []))
    { count := by decide, each := by decide, total := by decide }

/-- A write with payload and a read, joined to itself: the joined line is accepted, with
all four commands. -/
theorem neoParseTransaction_join_writeRead : ∃ left next,
    neoParseTransaction (some writeRead) NeoTxn.zero = .ok (0, left) ∧
    Decoded left writeReadCmds ∧
    neoParseTransaction (some (writeRead.join writeRead)) left = .ok (0, next) ∧
    Decoded next (writeReadCmds ++ writeReadCmds) ∧ next.error = none ∧ Joined next left left := by
  obtain ⟨left, accepted, decoded⟩ := writeRead_accepted NeoTxn.zero
  have start : CmdStart writeRead.chars := writeRead_start
  have derived : Line (skipBlanks (writeRead.join writeRead).chars)
      (.chain (writeReadCmds ++ writeReadCmds)) := writeRead_twice
  obtain ⟨next, both, decodedBoth⟩ := line_accepted left derived
  obtain ⟨rc', next', returned, full | ⟨-, joined, -⟩⟩ := neoParseTransaction_join writeRead writeRead
    NeoTxn.zero NeoTxn.zero left left left 0 accepted start start accepted
  all_goals
    rw [both] at returned
    cases returned
  · exact absurd full.1 (by decide)
  · exact ⟨left, next, accepted, decoded, both, decodedBoth, (joined rfl).1, (joined rfl).2⟩

/-! ## A place that is no `int` -/

/-- Any number of `_` is a run of them. -/
theorem bars_replicate (n : Nat) : Bars (List.replicate n (byte '_')) [] := by
  induction n with
  | zero => exact .done []
  | succ n ih => exact .bar ih

/-- The write `hA0h01` with `n` times `_` behind it. -/
def paddedWrite (n : Nat) : CString where
  chars := bytes "hA0h01" ++ List.replicate n (byte '_')
  nulFree := by
    rw [List.mem_append, not_or]
    refine ⟨by decide, ?_⟩
    intro member
    exact byte_bar_nonzero (List.eq_of_mem_replicate member).symm

/-- The length of the line, which can be made as large as wanted. -/
theorem paddedWrite_length (n : Nat) : (paddedWrite n).chars.length = n + 6 := by
  rw [paddedWrite, List.length_append, List.length_replicate, Nat.add_comm]
  rfl

/-- The line begins with a command. -/
theorem paddedWrite_start (n : Nat) : CmdStart (paddedWrite n).chars :=
  ⟨byte '0', by simp [ctrlDigits_codes], _, rfl⟩

/-- However many `_` are behind it, the line means the one write. -/
theorem paddedWrite_chain (n : Nat) : Chain (paddedWrite n).chars [.write 0xA0 0x01 []] := by
  have named : (byte '0', (0xA0 : UInt8)) ∈ writeCtrls := by simp [writeCtrls]
  have digits : byte '0' ∈ hexDigits ∧ byte '1' ∈ hexDigits := by simp [hexDigits_codes, byte]
  exact .line (.write named (.hex (.done _) (.pair _ digits.1 digits.2)) (.done _)) (.done _)
    (bars_replicate n)

/-- A command that breaks off where its internal address should stand. -/
def bareWrite : CString := CString.ofBuffer (bytes "hA0")

/-- The second line begins with a command. -/
theorem bareWrite_start : CmdStart bareWrite.chars :=
  ⟨byte '0', by simp [ctrlDigits_codes], [], rfl⟩

/-- The second line is rejected where its internal address should stand, at its end. -/
theorem bareWrite_stopped (count used : Nat) (free : count < neoParserMaxCmds) :
    scanChain count used bareWrite.chars = ([], some ⟨.addrSelector, []⟩) := by
  have behind : skipBars bareWrite.chars = byte 'h' :: bytes "A0" := rfl
  have stopped : scanCmd count used (byte 'h' :: bytes "A0") = .error ⟨.addrSelector, []⟩ := by
    rw [scanCmd, if_neg (Nat.not_le.mpr free)]
    rfl
  rw [scanChain_step count used behind, stopped]
  rfl

/-- Behind a first line of 2^31 characters and more the place of an error is negative. -/
theorem paddedWrite_negative : ∃ left right next,
    neoParseTransaction (some (paddedWrite (2 ^ 31))) NeoTxn.zero = .ok (0, left) ∧
      CmdStart (paddedWrite (2 ^ 31)).chars ∧ CmdStart bareWrite.chars ∧
      neoParseTransaction (some bareWrite) NeoTxn.zero = .ok (-1, right) ∧
      neoParseTransaction (some ((paddedWrite (2 ^ 31)).join bareWrite)) NeoTxn.zero = .ok (-1, next) ∧
      (∀ msg, next.error = some msg → ¬ msg.IsCapacity) ∧ next.errorPos = 10 - 2 ^ 31 ∧
      next.errorPos ≠ right.errorPos + (paddedWrite (2 ^ 31)).chars.length + 1 := by
  have chain := paddedWrite_chain (2 ^ 31)
  have fits : Fits 0 0 [.write 0xA0 0x01 []] :=
    { count := by decide, each := by decide, total := by decide }
  have first := parse_chain (paddedWrite (2 ^ 31)) NeoTxn.zero
    ((startsCmd_iff _).mpr (paddedWrite_start _))
  have second := parse_chain bareWrite NeoTxn.zero ((startsCmd_iff _).mpr bareWrite_start)
  have both := parse_chain ((paddedWrite (2 ^ 31)).join bareWrite) NeoTxn.zero
    (startsCmd_append ((startsCmd_iff _).mpr (paddedWrite_start _)) _)
  rw [(scanChain_exact _ ((startsCmd_iff _).mpr (paddedWrite_start _)) _).mpr ⟨chain, fits⟩] at first
  rw [bareWrite_stopped 0 0 (by decide)] at second
  rw [show ((paddedWrite (2 ^ 31)).join bareWrite).chars = (paddedWrite (2 ^ 31)).chars ++
      byte '_' :: bareWrite.chars from rfl,
    scanChain_join chain fits ((startsCmd_iff _).mpr bareWrite_start),
    bareWrite_stopped _ _ (by decide)] at both
  obtain ⟨left, accepted, -⟩ := first
  obtain ⟨right, stopped, rejected⟩ := second
  obtain ⟨next, returned, rejectedBoth⟩ := both
  have length : ((paddedWrite (2 ^ 31)).chars.length : Int) = 2 ^ 31 + 6 := by
    rw [paddedWrite_length]
    rfl
  have own : right.errorPos = 3 := rejected.errorPos.trans (by decide)
  have place := (rejected_joined rejectedBoth rejected).2
  rw [own, length] at place
  have negative : next.errorPos = 10 - 2 ^ 31 := by
    rw [place]
    decide
  refine ⟨left, right, next, accepted, paddedWrite_start _, bareWrite_start, stopped, returned, ?_,
    negative, ?_⟩
  · intro msg told
    rw [rejectedBoth.error] at told
    cases told
    simp [Msg.IsCapacity]
  · rw [negative, own, length]
    decide

end NeoSfp
