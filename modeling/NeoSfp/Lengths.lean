import NeoSfp.Spans

/-!
# How much text a derivation uses up

Every nonterminal pays for what it denotes with characters. A payload byte costs
one at least, a command five besides its payload, so the capacities of the
record can be compared with the length of a line.
-/

namespace NeoSfp

/-- Whatever is derived, so many characters are used up at least. -/
def Uses {α : Type} (item : Nonterminal α) (least : Nat) : Prop :=
  ∀ p a q, item p a q → q.length + least ≤ p.length

/-- A run of `_` only shortens the text. -/
theorem bars_length {p q : Text} (bars : Bars p q) : q.length ≤ p.length := by
  induction bars with
  | done p => exact Nat.le_refl _
  | bar bars ih => exact Nat.le_succ_of_le ih

/-- A hex byte uses up two characters. -/
theorem hexByte_uses : Uses HexByte 2 := by
  intro p b q derived
  cases derived with
  | pair q xDigit yDigit => exact Nat.le_refl _

/-- Bits use up one character each, besides their separators. By induction on the
derivation. -/
theorem bits_length {p q ds : Text} (bits : Bits p ds q) : q.length + ds.length ≤ p.length := by
  induction bits with
  | done p => exact Nat.le_refl _
  | bit bars digit bits ih =>
    have passed := bars_length bars
    simp only [List.length_cons] at passed ⊢
    omega

/-- A binary byte uses up eight characters at least, one for each bit. -/
theorem octet_uses : Uses Octet 8 := by
  intro p b q derived
  cases derived with
  | eight bits length =>
    have used := bits_length bits
    omega

/-- An ASCII byte uses up one character. -/
theorem asciiByte_uses : Uses AsciiByte 1 := by
  intro p b q derived
  cases derived with
  | alnum q member => exact Nat.le_refl _

/-- A repetition uses up as many characters as it has items, if each uses one. -/
theorem plus_length {α : Type} {item : Nonterminal α} {least : Nat} (uses : Uses item least)
    (some : 1 ≤ least) {p q : Text} {as : List α} (derived : Plus item p as q) :
    q.length + as.length ≤ p.length := by
  induction derived with
  | one first =>
    have used := uses _ _ _ first
    simp only [List.length_singleton]
    omega
  | more first others ih =>
    have used := uses _ _ _ first
    simp only [List.length_cons]
    omega

/-- An address uses up its letter and one character at least. -/
theorem iaddr_uses : Uses IAddr 2 := by
  intro p a q derived
  cases derived with
  | hex bars item =>
    have passed := bars_length bars
    have used := hexByte_uses _ _ _ item
    simp only [List.length_cons] at passed
    omega
  | bin bars item =>
    have passed := bars_length bars
    have used := octet_uses _ _ _ item
    simp only [List.length_cons] at passed
    omega
  | ascii bars item =>
    have passed := bars_length bars
    have used := asciiByte_uses _ _ _ item
    simp only [List.length_cons] at passed
    omega

/-- A payload uses up as many characters as it has bytes. By induction on its
derivation. -/
theorem payload_length {p q : Text} {bs : List UInt8} (derived : Payload p bs q) :
    q.length + bs.length ≤ p.length := by
  induction derived with
  | done p => exact Nat.le_refl _
  | bar derived ih =>
    simp only [List.length_cons]
    omega
  | hex first ordinary derived ih =>
    have used := plus_length hexByte_uses (by simp) first
    simp only [List.length_append, List.length_cons] at used ⊢
    omega
  | bin first derived ih =>
    have used := plus_length octet_uses (by simp) first
    simp only [List.length_append, List.length_cons] at used ⊢
    omega
  | ascii first closed derived ih =>
    have used := plus_length asciiByte_uses (by simp) first
    simp only [List.length_append, List.length_cons] at used ⊢
    omega

/-- A tail may be left out, so it need not use up anything. -/
theorem tail_uses : Uses Tail 0 := by
  intro p v q derived
  cases derived with
  | empty => exact Nat.le_refl _
  | count q count letter =>
    simp only [List.length_cons, List.length_append]
    omega
  | zero q count zero =>
    simp only [List.length_cons, List.length_append]
    omega

/-- Five characters and the payload: the shortest commands are like `hA0aX`, whose
address takes two of the five. -/
theorem cmd_length {p q : Text} {c : TwiCmd} (derived : Cmd p c q) :
    q.length + c.payload.length + 5 ≤ p.length := by
  cases derived with
  | write named iaddr payload =>
    have addressed := iaddr_uses _ _ _ iaddr
    have used := payload_length payload
    simp only [TwiCmd.payload, List.length_cons]
    omega
  | read named iaddr bars tail =>
    have addressed := iaddr_uses _ _ _ iaddr
    have passed := bars_length bars
    have used := tail_uses _ _ _ tail
    simp only [TwiCmd.payload, List.length_nil, List.length_cons]
    omega

/-- A line of commands is at least as long as its commands and payloads require. -/
theorem segment_length {p q : Text} {cs : List TwiCmd} (segment : Segment p cs q) :
    q.length + payloadTotal cs + 5 * cs.length ≤ p.length := by
  obtain ⟨r, derived, bars⟩ := segment
  have behind := bars_length bars
  induction derived with
  | done p => simpa using behind
  | cmd skipped first others ih =>
    have passed := bars_length skipped
    have used := cmd_length first
    have rest := ih bars behind
    simp only [payloadTotal_cons, List.length_cons]
    omega

/-- No payload is longer than all of them together. -/
theorem payload_part {cs : List TwiCmd} {c : TwiCmd} (member : c ∈ cs) :
    c.payload.length ≤ payloadTotal cs :=
  List.single_le_sum (by simp) _ (List.mem_map_of_mem member)

end NeoSfp
