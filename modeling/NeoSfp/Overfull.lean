import NeoSfp.Repairs

/-!
# Lines with too many commands

A command may be as short as five characters, so a line of the usual length can
hold more commands than the record has entries for.
-/

namespace NeoSfp

/-- As many commands as the record holds are followed by the start of another one. -/
def Overfull (p : Text) : Prop :=
  CmdStart p ∧ ∃ cs q, Segment p cs q ∧ cs.length = 160 ∧ CmdStart q

/-- The commands alone take 800 characters, the start of the next one three. -/
theorem overfull_length {p : Text} (overfull : Overfull p) : 803 ≤ p.length := by
  obtain ⟨-, cs, q, segment, full, d, -, rest, rfl⟩ := overfull
  have length := segment_length segment
  simp only [List.length_cons] at length
  omega

/-- The scan of an overfull line stops for want of an entry: the commands fill the
record, and another one begins. -/
theorem overfull_stops {p : Text} (short : p.length ≤ 1024) (overfull : Overfull p) :
    ∃ cs q, scanLine p = .error (cs, ⟨.tooManyCmds, q⟩) := by
  obtain ⟨start, cs, q, segment, full, begins⟩ := overfull
  have length := segment_length segment
  obtain ⟨r, derived, bars⟩ := segment
  rw [← startsCmd_iff] at start begins
  have follow : Follow r := by
    right
    rw [skipBars_bars bars, startsCmd_skip begins]
    exact begins
  have fits : Fits 0 0 cs :=
    { count := by omega
      each := by
        intro c member
        have part := payload_part member
        omega
      total := by omega }
  have stops : (scanChain (0 + cs.length) (0 + payloadTotal cs) r) = ([], some ⟨.tooManyCmds, q⟩) := by
    have stopped : scanCmd (0 + cs.length) (0 + payloadTotal cs) q = .error ⟨.tooManyCmds, q⟩ := by
      rw [scanCmd, if_pos (by rw [Nat.zero_add, full]; exact Nat.le_refl 160)]
    rw [scanChain_bars _ _ bars]
    cases q with
    | nil => simp [startsCmd] at begins
    | cons ch q => rw [scanChain_step _ _ (startsCmd_skip begins), if_pos begins, stopped]
  refine ⟨cs, q, ?_⟩
  rw [scanLine_start start, scanChain_cmds derived follow 0 0 fits, stops, List.append_nil]

/-- What a line of the usual length stops for: a character, an empty line, a count
that is too large, or too many commands. -/
theorem stopped_kinds {p : Text} {cs : List TwiCmd} {s : Stop} (short : p.length ≤ 1024)
    (stopped : scanLine p = .error (cs, s)) :
    s.msg.syntactic = true ∨ s.msg = .emptyTransaction ∨ s.msg = .countExceeds ∨
      s.msg = .tooManyCmds ∧ Overfull p := by
  by_cases start : startsCmd p = true
  · obtain ⟨u, q, rfl, takes, -, ⟨rfl, -⟩ | ⟨rfl, length, begins⟩ | ⟨-, exceeds | repairable⟩⟩ :=
      chain_stops start short (scanLine_stopped start stopped)
    · exact Or.inl rfl
    · rw [startsCmd_iff] at start begins
      exact Or.inr (Or.inr (Or.inr ⟨rfl, start, cs, q, takes q, length, begins⟩))
    · exact Or.inr (Or.inr (Or.inl exceeds))
    · exact Or.inl repairable.1
  · rcases scanLine_other (by simpa using start) stopped with ⟨-, rfl⟩ | failed
    · exact Or.inr (Or.inl rfl)
    · exact Or.inl (scanSpecial_repairable failed).1

/-- Only an overfull line stops for want of an entry, since the scan has decoded as many
commands by then. -/
theorem stopped_overfull {p : Text} {cs : List TwiCmd} {s : Stop} (short : p.length ≤ 1024)
    (stopped : scanLine p = .error (cs, s)) (full : s.msg = .tooManyCmds) : Overfull p := by
  rcases stopped_kinds short stopped with syntactic | empty | exceeds | ⟨-, overfull⟩
  · simp [full, Msg.syntactic] at syntactic
  · simp [full] at empty
  · simp [full] at exceeds
  · exact overfull

/-- Skipping blanks only shortens the text. -/
theorem skipBlanks_length (p : Text) : (skipBlanks p).length ≤ p.length := by
  fun_induction skipBlanks p with
  | case1 => exact Nat.le_refl _
  | case2 ch rest blank ih => exact Nat.le_succ_of_le ih
  | case3 ch rest other => exact Nat.le_refl _

/-- A line of the usual length never fails for its number of commands, if and only if it
is not overfull behind its leading blanks. Up to 802 characters it cannot be. Five
characters for each command bound how many a line can hold. -/
theorem neoParseTransaction_tooMany (line : CString) (out : NeoTxn)
    (short : line.chars.length ≤ neoParserLineMax) :
    ∃ rc next, neoParseTransaction (some line) out = .ok (rc, next) ∧
      ((rc ≠ 0 → next.error ≠ some .tooManyCmds) ↔ ¬ Overfull (skipBlanks line.chars)) ∧
      (line.chars.length ≤ 802 → next.error ≠ some .tooManyCmds) := by
  have shorter := skipBlanks_length line.chars
  have usual : (skipBlanks line.chars).length ≤ 1024 := Nat.le_trans shorter short
  have parses := neoParseTransaction_scan line out
  cases scanned : scanLine (skipBlanks line.chars) with
  | ok parsed =>
    rw [scanned] at parses
    obtain ⟨next, returned, left⟩ := parses
    have noError : next.error = none := by
      cases parsed with
      | chain cs => exact left.noError
      | special entry => exact left.noError
    refine ⟨0, next, returned, ?_, ?_⟩
    · constructor
      · intro _ overfull
        obtain ⟨cs, q, stopped⟩ := overfull_stops usual overfull
        rw [scanned] at stopped
        cases stopped
      · intro _ rejected
        exact absurd rfl rejected
    · intro _
      simp [noError]
  | error stopped =>
    obtain ⟨cs, s⟩ := stopped
    rw [scanned] at parses
    obtain ⟨next, returned, rejected⟩ := parses
    refine ⟨-1, next, returned, ?_, ?_⟩
    · rw [rejected.error]
      constructor
      · intro other overfull
        obtain ⟨ds, q, again⟩ := overfull_stops usual overfull
        rw [scanned] at again
        cases again
        exact other (by decide) rfl
      · intro roomy _ full
        exact roomy (stopped_overfull usual scanned (Option.some.inj full))
    · intro few full
      rw [rejected.error] at full
      have overfull := stopped_overfull usual scanned (Option.some.inj full)
      have long := overfull_length overfull
      omega

/-- A line of two writes is not overfull, and does not fail for its number of
commands. -/
theorem neoParseTransaction_tooMany_twoWrites : ∃ rc next,
    neoParseTransaction (some twoWrites) NeoTxn.zero = .ok (rc, next) ∧
      ((rc ≠ 0 → next.error ≠ some .tooManyCmds) ↔ ¬ Overfull (skipBlanks twoWrites.chars)) ∧
      (twoWrites.chars.length ≤ 802 → next.error ≠ some .tooManyCmds) :=
  neoParseTransaction_tooMany twoWrites NeoTxn.zero (by decide)

/-! ## A line of short commands -/

/-- So many writes to the internal address `X`. -/
def shortWrites (n : Nat) : Text := (List.replicate n (bytes "hA0aX")).flatten

/-- Short writes are a segment of as many commands, whatever follows. By induction on
their number. -/
theorem shortWrites_segment (n : Nat) (q : Text) :
    Segment (shortWrites n ++ q) (List.replicate n (.write 0xA0 (byte 'X') [])) q := by
  have named : (byte '0', (0xA0 : UInt8)) ∈ writeCtrls := by simp [writeCtrls]
  have letter : byte 'X' ∈ alnums := by simp [← isAlnumLat_iff, isAlnumLat, byte]
  induction n with
  | zero => exact segment_nil (.done q)
  | succ n ih =>
    rw [shortWrites, List.replicate_succ, List.flatten_cons, List.replicate_succ, List.append_assoc]
    exact segment_cons (.write named (.ascii (.done _) (.alnum _ letter)) (.done _)) ih

/-- Each short write has five characters. -/
theorem shortWrites_length (n : Nat) : (shortWrites n).length = n * 5 := by
  rw [shortWrites, List.length_flatten, List.map_replicate, List.sum_replicate]
  rfl

/-- A line of 161 commands. -/
def crowdedLine : CString where
  chars := shortWrites 160 ++ bytes "hA0aX"
  nulFree := by
    rw [List.mem_append, not_or]
    constructor
    · intro member
      obtain ⟨word, inside, nul⟩ := List.mem_flatten.mp member
      rw [List.eq_of_mem_replicate inside] at nul
      simp [bytes, byte] at nul
    · simp [bytes, byte]

/-- The line has 805 characters and is rejected for its number of commands. -/
theorem crowdedLine_rejected : crowdedLine.chars.length ≤ neoParserLineMax ∧
    ∃ next, neoParseTransaction (some crowdedLine) NeoTxn.zero = .ok (-1, next) ∧
      next.error = some .tooManyCmds := by
  have length : crowdedLine.chars.length = 805 := by
    rw [crowdedLine, List.length_append, shortWrites_length]
    rfl
  have begins : CmdStart (bytes "hA0aX") :=
    ⟨byte '0', by simp [ctrlDigits_codes], bytes "aX", rfl⟩
  have start : CmdStart crowdedLine.chars :=
    ⟨byte '0', by simp [ctrlDigits_codes], bytes "aX" ++ (shortWrites 159 ++ bytes "hA0aX"), rfl⟩
  have same := skipBlanks_start ((startsCmd_iff _).mpr start)
  have overfull : Overfull (skipBlanks crowdedLine.chars) := by
    rw [same]
    exact ⟨start, _, _, shortWrites_segment 160 (bytes "hA0aX"), List.length_replicate, begins⟩
  have usual : (skipBlanks crowdedLine.chars).length ≤ 1024 := by
    rw [same, length]
    decide
  obtain ⟨cs, q, stopped⟩ := overfull_stops usual overfull
  have parses := neoParseTransaction_scan crowdedLine NeoTxn.zero
  rw [stopped] at parses
  obtain ⟨next, returned, rejected⟩ := parses
  exact ⟨by rw [length]; decide, next, returned, rejected.error⟩

end NeoSfp
