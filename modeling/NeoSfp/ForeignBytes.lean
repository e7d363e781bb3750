import NeoSfp.Alphabet
import NeoSfp.ShellLines

/-!
# Foreign bytes in a line

The grammar spells every line that is accepted with letters, digits, `_`, `?`,
blanks and tabs. The reader stores any byte, though, and the parser takes the
buffer for a string: it sees what stands before the first NUL, and a foreign byte
from there on is never looked at.
-/

namespace NeoSfp

/-- The line is a command that reaches the hardware. -/
def Acts (p : Text) : Prop :=
  (∃ cs, Chain p cs ∧ Fits 0 0 cs) ∨ ∃ entry, SpecialLine p entry ∧ entry.kind ≠ .help

/-- Commands make calls: each has a frame, which is never empty. -/
theorem frames_nonempty {cs : List TwiCmd} (nonempty : cs ≠ []) : cs.flatMap TwiCmd.frame ≠ [] := by
  cases cs with
  | nil => exact absurd rfl nonempty
  | cons c cs => simp [TwiCmd.frame]

/-- Of the special commands only the help makes no call. -/
theorem specialCalls_nil {p : Text} {entry : NeoCmd} (derived : SpecialLine p entry) :
    specialCalls entry = [] ↔ entry.kind = .help := by
  cases derived <;> simp [specialCalls]

/-- A text leads to calls if and only if it is a command that reaches the hardware. -/
theorem textCalls_nil (text : CString) :
    textCalls text = [] ↔ ¬ Acts (skipBlanks text.chars) := by
  unfold textCalls
  cases scanned : scanLine (skipBlanks text.chars) with
  | ok parsed =>
    have meaning := (scanLine_exact _ _).mp scanned
    have unique : ∀ other, Line (skipBlanks text.chars) other → parsed = other := by
      intro other derived
      exact line_unique meaning derived
    cases meaning with
    | @chain cs derived fits =>
      have calls := frames_nonempty (chain_nonempty derived)
      constructor
      · intro empty
        exact absurd empty calls
      · intro idle
        exact absurd (Or.inl ⟨cs, derived, fits⟩) idle
    | @special entry derived =>
      rw [scannedCalls, specialCalls_nil derived]
      constructor
      · rintro help (⟨cs, chain, fits⟩ | ⟨other, otherDerived, active⟩)
        · have same := unique _ (.chain chain fits)
          cases same
        · have same := unique _ (.special otherDerived)
          cases same
          exact active help
      · intro idle
        by_contra active
        exact idle (Or.inr ⟨entry, derived, active⟩)
  | error stopped =>
    have meaningless := line_stopped scanned
    refine ⟨fun _ => ?_, fun _ => rfl⟩
    rintro (⟨cs, chain, fits⟩ | ⟨entry, derived, -⟩)
    · exact meaningless _ (.chain chain fits)
    · exact meaningless _ (.special derived)

/-- A text with a foreign byte is not a command, since every command is spelled with
characters of the grammar. -/
theorem foreign_idle {p : Text} (foreign : ∃ ch ∈ p, allowed ch = false) :
    ¬ Acts (skipBlanks p) := by
  obtain ⟨ch, member, stranger⟩ := foreign
  have refuted : ∀ parsed, ¬ Line (skipBlanks p) parsed := by
    intro parsed derived
    rcases spells_trans (skipBlanks_spells p) (line_spells derived) ch member with fine | left
    · rw [stranger] at fine
      simp at fine
    · exact List.not_mem_nil left
  rintro (⟨cs, chain, fits⟩ | ⟨entry, derived, -⟩)
  · exact refuted _ (.chain chain fits)
  · exact refuted _ (.special derived)

/-- A text without a NUL is seen whole by whoever stops at the first NUL. -/
theorem takeWhile_whole {text : List UInt8} (nulFree : 0 ∉ text) :
    text.takeWhile (· ≠ 0) = text := by
  apply List.takeWhile_eq_self_iff.mpr
  intro c member
  apply decide_eq_true
  intro zero
  exact nulFree (zero ▸ member)

/-- The round that handles a received line, with or without its terminator: its calls
are those of the text in front of the first NUL. -/
theorem appRound_line (hal : Hal) (line : InputLine) (short : line.text.length ≤ neoParserLineMax)
    (s : Shell) (rest : List UInt8) (input : s.input = line.text ++ line.ending :: rest) :
    ∃ s', appRound hal s = .ok (.next s') ∧
      s'.exec.calls = s.exec.calls ++ textCalls (CString.ofBuffer line.text) := by
  by_cases free : line.text.length < neoParserLineMax
  · have returns := neoReadLine_line (neoParserLineMax + 1) true s.line line rest (by omega)
    rw [← input] at returns
    obtain ⟨s', round, -, calls⟩ := appRound_calls hal s returns short
    exact ⟨s', round, calls⟩
  · have returns := neoReadLine_full (neoParserLineMax + 1) true s.line line.text
      (line.ending :: rest) line.plain (by omega)
    rw [← input] at returns
    obtain ⟨s', round, -, calls⟩ := appRound_calls hal s returns short
    exact ⟨s', round, calls⟩

/-- A line with a foreign byte makes no call, unless the byte is hidden: the line holds
a NUL, and what stands in front of the first one is a command that reaches the hardware.
Every command is spelled with characters of the grammar, so a foreign byte can only
stand behind the end of the parser's string. -/
theorem appRound_foreign (hal : Hal) (line : InputLine)
    (short : line.text.length ≤ neoParserLineMax) (foreign : ∃ ch ∈ line.text, allowed ch = false)
    (s : Shell) (rest : List UInt8) (input : s.input = line.text ++ line.ending :: rest) :
    ∃ s', appRound hal s = .ok (.next s') ∧
      (s'.exec.calls = s.exec.calls ↔
        (0 ∈ line.text → ¬ Acts (skipBlanks (line.text.takeWhile (· ≠ 0))))) := by
  obtain ⟨s', round, calls⟩ := appRound_line hal line short s rest input
  refine ⟨s', round, ?_⟩
  rw [calls, List.append_right_eq_self, textCalls_nil]
  constructor
  · intro idle _
    exact idle
  · intro hidden
    by_cases nul : 0 ∈ line.text
    · exact hidden nul
    · have whole : (CString.ofBuffer line.text).chars = line.text := takeWhile_whole nul
      rw [whole]
      exact foreign_idle foreign

/-- The line `inp` with a NUL behind it. -/
def inpNul : InputLine where
  text := bytes "inp" ++ [0]
  ending := '\n'
  plain := by simp [bytes, endsLine, erases, byte]
  ends := endsLine_lf

/-- The line fits the reader's buffer. -/
theorem inpNul_short : inpNul.text.length ≤ neoParserLineMax := by
  simp [inpNul, bytes, neoParserLineMax]

/-- The NUL is no character of the grammar. -/
theorem inpNul_foreign : ∃ ch ∈ inpNul.text, allowed ch = false :=
  ⟨0, by simp [inpNul], by simp [allowed, isAlnumLat, byte]⟩

/-- The line whose foreign byte is the NUL that ends the parser's string. -/
theorem appRound_foreign_inpNul :
    ∃ s', appRound acknowledging { input := inpNul.text ++ inpNul.ending :: [] } = .ok (.next s') ∧
      (s'.exec.calls = [] ↔
        (0 ∈ inpNul.text → ¬ Acts (skipBlanks (inpNul.text.takeWhile (· ≠ 0))))) :=
  appRound_foreign acknowledging inpNul inpNul_short inpNul_foreign _ [] rfl

/-- The port is read for it, although the line holds a foreign byte: the parser sees
`inp`. -/
theorem inpNul_reads :
    inpNul.text.length ≤ neoParserLineMax ∧ (∃ ch ∈ inpNul.text, allowed ch = false) ∧
    ∃ s', appRound acknowledging { input := inpNul.text ++ inpNul.ending :: [] } = .ok (.next s') ∧
      s'.exec.calls = [.gpioReadByte] := by
  obtain ⟨s', round, calls⟩ := appRound_line acknowledging inpNul inpNul_short
    { input := inpNul.text ++ inpNul.ending :: [] } [] rfl
  exact ⟨inpNul_short, inpNul_foreign, s', round, calls⟩

end NeoSfp
