import NeoSfp.GrammarLines

/-!
# The characters of the grammar

Every line that has a meaning is spelled with letters, digits, `_`, `?`, blanks and
tabs.
-/

namespace NeoSfp

/-- The characters of the grammar. -/
def allowed (c : UInt8) : Bool :=
  isAlnumLat c || c == '_' || c == '?' || c == ' ' || c == '\t'

/-- In front of `q`, the text `p` has only characters of the grammar. -/
def Spells (p q : Text) : Prop := ∀ ch ∈ p, allowed ch = true ∨ ch ∈ q

/-- Nothing is spelled in front of a text that ends where it begins. -/
theorem spells_refl (p : Text) : Spells p p := fun _ member => Or.inr member

/-- Two spellings in a row are one: a character of the whole stands either in front of
the middle or behind it. -/
theorem spells_trans {p q r : Text} (first : Spells p q) (second : Spells q r) : Spells p r := by
  intro ch member
  rcases first ch member with fine | left
  · exact Or.inl fine
  · exact second ch left

/-- A character of the grammar in front of a spelling belongs to it. -/
theorem spells_cons {c : UInt8} {p q : Text} (fine : allowed c = true) (rest : Spells p q) :
    Spells (c :: p) q := by
  intro ch member
  rcases List.mem_cons.mp member with same | later
  · exact Or.inl (same ▸ fine)
  · exact rest ch later

/-- Several characters of the grammar in front of a spelling belong to it. This is how a
word or a run of digits is passed over. -/
theorem spells_append {ds p q : Text} (fine : ∀ d ∈ ds, allowed d = true) (rest : Spells p q) :
    Spells (ds ++ p) q := by
  induction ds with
  | nil => exact rest
  | cons d ds ih =>
    apply spells_cons (fine d List.mem_cons_self)
    exact ih fun d member => fine d (List.mem_cons_of_mem _ member)

/-- Letters and digits belong to the grammar, whatever they stand for. -/
theorem allowed_alnum {c : UInt8} (alnum : c ∈ alnums) : allowed c = true := by
  simp [allowed, (isAlnumLat_iff c).mpr alnum]

/-- A hex digit is a letter or a digit, so it belongs to the grammar. -/
theorem allowed_hex {c : UInt8} (digit : c ∈ hexDigits) : allowed c = true := by
  rw [hexDigits_codes] at digit
  revert c
  simp [allowed, isAlnumLat, byte]

/-- The two binary digits belong to the grammar. -/
theorem allowed_bin {c : UInt8} (digit : c ∈ binDigits) : allowed c = true := by
  rw [binDigits_codes] at digit
  revert c
  simp [allowed, isAlnumLat, byte]

/-- The letters that open the groups, and the separator, belong to the grammar. -/
theorem allowed_letters : allowed 'h' = true ∧ allowed 'b' = true ∧ allowed 'a' = true ∧
    allowed 'A' = true ∧ allowed '_' = true := by
  simp [allowed, isAlnumLat, byte]

/-- Separators are spelled with `_` only. By induction on how many there are. -/
theorem bars_spells {p q : Text} (derived : Bars p q) : Spells p q := by
  induction derived with
  | done p => exact spells_refl p
  | bar rest ih => exact spells_cons allowed_letters.2.2.2.2 ih

/-- A hex byte is spelled with its two digits. -/
theorem hexByte_spells {p q : Text} {b : UInt8} (derived : HexByte p b q) : Spells p q := by
  cases derived with
  | pair q high low => exact spells_cons (allowed_hex high) (spells_cons (allowed_hex low) (spells_refl q))

/-- Bits are spelled with binary digits and the separators between them. By induction on
the derivation. -/
theorem bits_spells {p q ds : Text} (derived : Bits p ds q) : Spells p q := by
  induction derived with
  | done p => exact spells_refl p
  | bit bars digit rest ih => exact spells_trans (bars_spells bars) (spells_cons (allowed_bin digit) ih)

/-- A binary byte is spelled with its bits and the `b` in front of them. -/
theorem octet_spells {p q : Text} {b : UInt8} (derived : Octet p b q) : Spells p q := by
  cases derived with
  | eight bits eight => exact bits_spells bits

/-- An ASCII byte is spelled with itself, a letter or a digit. -/
theorem asciiByte_spells {p q : Text} {b : UInt8} (derived : AsciiByte p b q) : Spells p q := by
  cases derived with
  | alnum q alnum => exact spells_cons (allowed_alnum alnum) (spells_refl q)

/-- A repetition is spelled with allowed characters if its item is. By induction on how
often the item is repeated. -/
theorem plus_spells {item : Nonterminal UInt8} (spells : ∀ {p b q}, item p b q → Spells p q)
    {p q : Text} {bs : List UInt8} (derived : Plus item p bs q) : Spells p q := by
  induction derived with
  | one first => exact spells first
  | more first rest ih => exact spells_trans (spells first) ih

/-- The address inside the device is spelled in one of its three forms, each a group of
bytes behind its letter. -/
theorem iaddr_spells {p q : Text} {a : UInt8} (derived : IAddr p a q) : Spells p q := by
  obtain ⟨h, b, a, -⟩ := allowed_letters
  cases derived with
  | hex bars item => exact spells_trans (bars_spells bars) (spells_cons h (hexByte_spells item))
  | bin bars item => exact spells_trans (bars_spells bars) (spells_cons b (octet_spells item))
  | ascii bars item => exact spells_trans (bars_spells bars) (spells_cons a (asciiByte_spells item))

/-- A payload is spelled with allowed characters: group by group and separator by
separator, along its derivation. -/
theorem payload_spells {p q : Text} {bs : List UInt8} (derived : Payload p bs q) : Spells p q := by
  obtain ⟨h, b, a, -, bar⟩ := allowed_letters
  induction derived with
  | done p => exact spells_refl p
  | bar rest ih => exact spells_cons bar ih
  | hex group notCtrl rest ih => exact spells_cons h (spells_trans (plus_spells hexByte_spells group) ih)
  | bin group rest ih => exact spells_cons b (spells_trans (plus_spells octet_spells group) ih)
  | ascii group ends rest ih =>
    exact spells_cons a (spells_trans (plus_spells asciiByte_spells group) ih)

/-- The letters that name the formats of a read belong to the grammar. -/
theorem formatLetter_allowed {f : UInt8} {fmt : NeoFmt} (letter : FormatLetter f fmt) :
    allowed f = true := by
  obtain ⟨h, b, a, -⟩ := allowed_letters
  cases letter with
  | hex => exact h
  | bin => exact b
  | ascii => exact a

/-- The end of a read, which is a count, a format or both, is spelled with allowed
characters. -/
theorem tail_spells {p q : Text} {n : Nat} {fmt : NeoFmt} (derived : Tail p (n, fmt) q) :
    Spells p q := by
  obtain ⟨h, -, -, -, bar⟩ := allowed_letters
  cases derived with
  | empty p => exact spells_refl p
  | count q digits letter =>
    apply spells_cons h
    apply spells_append fun d member => allowed_hex (digits.digits d member)
    exact spells_cons (formatLetter_allowed letter) (spells_cons bar (spells_refl q))
  | zero q digits zero =>
    apply spells_cons h
    apply spells_append fun d member => allowed_hex (digits.digits d member)
    exact spells_cons bar (spells_refl q)

/-- The digit behind the `A` of a command belongs to the grammar, for writes and for
reads. -/
theorem ctrl_allowed {d ctrl : UInt8} (named : (d, ctrl) ∈ writeCtrls ∨ (d, ctrl) ∈ readCtrls) :
    allowed d = true := by
  have digit : d = byte '0' ∨ d = byte '2' ∨ d = byte '1' ∨ d = byte '3' := by
    simp only [writeCtrls, readCtrls, List.mem_cons, Prod.mk.injEq, List.not_mem_nil, or_false] at named
    tauto
  rcases digit with rfl | rfl | rfl | rfl <;> simp [allowed, isAlnumLat, byte]

/-- A command is spelled with allowed characters, a write with its payload and a read
with its tail. -/
theorem cmd_spells {p q : Text} {c : TwiCmd} (derived : Cmd p c q) : Spells p q := by
  obtain ⟨h, -, -, upper, -⟩ := allowed_letters
  cases derived with
  | write named addr payload =>
    apply spells_cons h
    apply spells_cons upper
    apply spells_cons (ctrl_allowed (Or.inl named))
    exact spells_trans (iaddr_spells addr) (payload_spells payload)
  | read named addr bars tail =>
    apply spells_cons h
    apply spells_cons upper
    apply spells_cons (ctrl_allowed (Or.inr named))
    apply spells_trans (iaddr_spells addr)
    exact spells_trans (bars_spells bars) (tail_spells tail)

/-- A sequence of commands is spelled with allowed characters. By induction on the
commands. -/
theorem cmds_spells {p q : Text} {cs : List TwiCmd} (derived : Cmds p cs q) : Spells p q := by
  induction derived with
  | done p => exact spells_refl p
  | cmd bars first rest ih =>
    apply spells_trans (bars_spells bars)
    exact spells_trans (cmd_spells first) ih

/-- Blanks and tabs belong to the grammar, so a text of nothing else is spelled with
it. -/
theorem blanks_spells {p : Text} (blanks : Blanks p) : Spells p [] := by
  intro ch member
  rcases blanks ch member with rfl | rfl <;> simp [allowed]

/-- A word of the special lines, with blanks behind it, is spelled with allowed
characters if the word is. -/
theorem keyword_spells {word : Text} {p : Text} (fine : word.all allowed = true)
    (blanks : Blanks p) : Spells (word ++ p) [] :=
  spells_append (List.all_eq_true.mp fine) (blanks_spells blanks)

/-- An accepted line consists of characters of the grammar: every form of a line is
spelled with them, from its first character to its end. -/
theorem line_spells {p : Text} {parsed : Parsed} (derived : Line p parsed) : Spells p [] := by
  cases derived with
  | chain derived fits =>
    cases derived with
    | line first others bars =>
      apply spells_trans (cmd_spells first)
      exact spells_trans (cmds_spells others) (bars_spells bars)
  | special derived =>
    cases derived with
    | @out ds tail eight digits blanks =>
      rw [List.append_assoc]
      apply spells_append
      · rw [bytes_out]
        simp [allowed, isAlnumLat, byte]
      · exact spells_append (fun d member => allowed_bin (digits d member)) (blanks_spells blanks)
    | inp blanks => exact keyword_spells (by simp [bytes_inp, allowed, isAlnumLat, byte]) blanks
    | help blanks => exact keyword_spells (by simp [bytes_help, allowed, isAlnumLat, byte]) blanks
    | mark blanks => exact keyword_spells (by simp [bytes_mark, allowed]) blanks

/-- What the parser skips at the beginning of a line are blanks and tabs, which belong
to the grammar. -/
theorem skipBlanks_spells (p : Text) : Spells p (skipBlanks p) := by
  induction p with
  | nil => exact spells_refl []
  | cons c p ih =>
    rw [skipBlanks]
    split
    next blank =>
      apply spells_cons _ ih
      simp only [isBlank, Bool.or_eq_true, beq_iff_eq] at blank
      rcases blank with rfl | rfl <;> simp [allowed]
    next other => exact spells_refl _

end NeoSfp
