import NeoSfp.Joining

/-!
# Texts read whatever follows them

Most of the grammar reads a text without a look at what comes behind it. The
exception is an ASCII group of a payload that only the end of the line closes:
more letters would go on with it. A line of commands is therefore either a span,
read in the same way in front of anything, or cut off in such a group.
-/

namespace NeoSfp

/-- The text is read as this value in front of anything. -/
def Takes {α : Type} (item : Nonterminal α) (u : Text) (a : α) : Prop := ∀ q, item (u ++ q) a q

/-- What a derivation uses up is read in the same way in front of anything. -/
def Spans {α : Type} (item : Nonterminal α) : Prop :=
  ∀ p a q, item p a q → ∃ u, p = u ++ q ∧ Takes item u a

/-- A run of `_` is read in the same way whatever follows it. -/
theorem bars_span {p q : Text} (bars : Bars p q) : ∃ u, p = u ++ q ∧ ∀ r, Bars (u ++ r) r := by
  induction bars with
  | done p => exact ⟨[], rfl, fun r => .done r⟩
  | bar bars ih =>
    obtain ⟨u, rfl, takes⟩ := ih
    exact ⟨byte '_' :: u, rfl, fun r => .bar (takes r)⟩

/-- A hex byte is read in the same way whatever follows it. -/
theorem hexByte_spans : Spans HexByte := by
  intro p b q derived
  cases derived with
  | @pair x y q xDigit yDigit => exact ⟨[x, y], rfl, fun r => .pair r xDigit yDigit⟩

/-- Bits are read in the same way whatever follows them. By induction on the
derivation. -/
theorem bits_span {p q ds : Text} (bits : Bits p ds q) :
    ∃ u, p = u ++ q ∧ ∀ r, Bits (u ++ r) ds r := by
  induction bits with
  | done p => exact ⟨[], rfl, fun r => .done r⟩
  | @bit p q r d ds bars digit bits ih =>
    obtain ⟨u, rfl, passes⟩ := bars_span bars
    obtain ⟨v, rfl, takes⟩ := ih
    refine ⟨u ++ d :: v, by simp, ?_⟩
    intro r
    rw [List.append_assoc]
    exact .bit (passes _) digit (takes r)

/-- A binary byte is read in the same way whatever follows it. -/
theorem octet_spans : Spans Octet := by
  intro p b q derived
  cases derived with
  | eight bits length =>
    obtain ⟨u, text, takes⟩ := bits_span bits
    exact ⟨u, text, fun r => .eight (takes r) length⟩

/-- An ASCII byte is read in the same way whatever follows it. -/
theorem asciiByte_spans : Spans AsciiByte := by
  intro p b q derived
  cases derived with
  | alnum q member => exact ⟨[b], rfl, fun r => .alnum r member⟩

/-- A repetition is read in the same way whatever follows it, if its item is. By
induction on the derivation. -/
theorem plus_spans {α : Type} {item : Nonterminal α} (spans : Spans item) : Spans (Plus item) := by
  intro p as q derived
  induction derived with
  | one first =>
    obtain ⟨u, text, takes⟩ := spans _ _ _ first
    exact ⟨u, text, fun r => .one (takes r)⟩
  | more first others ih =>
    obtain ⟨u, rfl, takes⟩ := spans _ _ _ first
    obtain ⟨v, rfl, behind⟩ := ih
    refine ⟨u ++ v, by simp, ?_⟩
    intro r
    rw [List.append_assoc]
    exact .more (takes _) (behind r)

/-- What stands behind `_` and a selector is read with them in the same way whatever
follows. -/
theorem selected_span {item : Nonterminal UInt8} (spans : Spans item) {fc b : UInt8} {p q r : Text}
    (bars : Bars p (fc :: q)) (derived : item q b r) :
    ∃ u, p = u ++ r ∧ ∀ t, ∃ s, Bars (u ++ t) (fc :: s) ∧ item s b t := by
  obtain ⟨u, rfl, passes⟩ := bars_span bars
  obtain ⟨v, rfl, takes⟩ := spans _ _ _ derived
  refine ⟨u ++ fc :: v, by simp, ?_⟩
  intro t
  rw [List.append_assoc]
  exact ⟨v ++ t, passes _, takes t⟩

/-- An address is read in the same way whatever follows it. There is one case for each
of its forms. -/
theorem iaddr_spans : Spans IAddr := by
  intro p a q derived
  cases derived with
  | hex bars item =>
    obtain ⟨u, text, reads⟩ := selected_span hexByte_spans bars item
    refine ⟨u, text, ?_⟩
    intro t
    obtain ⟨s, passes, read⟩ := reads t
    exact .hex passes read
  | bin bars item =>
    obtain ⟨u, text, reads⟩ := selected_span octet_spans bars item
    refine ⟨u, text, ?_⟩
    intro t
    obtain ⟨s, passes, read⟩ := reads t
    exact .bin passes read
  | ascii bars item =>
    obtain ⟨u, text, reads⟩ := selected_span asciiByte_spans bars item
    refine ⟨u, text, ?_⟩
    intro t
    obtain ⟨s, passes, read⟩ := reads t
    exact .ascii passes read

/-- The tail of a read is read in the same way whatever follows it, being closed by a
`_` or left out. -/
theorem tail_spans : Spans Tail := by
  intro p v q derived
  cases derived with
  | empty => exact ⟨[], rfl, fun r => .empty r⟩
  | @count ds f fmt q digits letter =>
    refine ⟨byte 'h' :: (ds ++ [f, byte '_']), by simp, ?_⟩
    intro r
    have text : byte 'h' :: (ds ++ [f, byte '_']) ++ r = byte 'h' :: (ds ++ f :: byte '_' :: r) := by
      simp
    rw [text]
    exact .count r digits letter
  | @zero ds q digits zero =>
    refine ⟨byte 'h' :: (ds ++ [byte '_']), by simp, ?_⟩
    intro r
    have text : byte 'h' :: (ds ++ [byte '_']) ++ r = byte 'h' :: (ds ++ byte '_' :: r) := by simp
    rw [text]
    exact .zero r digits zero

/-! ## Payloads -/

/-- No `_` comes next. -/
def Clear (q : Text) : Prop := q.head? ≠ some (byte '_')

/-- At the end of the text no `_` comes next. -/
theorem clear_nil : Clear [] := by simp [Clear]

/-- In front of a command no `_` comes next. -/
theorem clear_start {q : Text} (start : startsCmd q = true) : Clear q := by
  cases q with
  | nil => exact clear_nil
  | cons ch rest =>
    rw [startsCmd_selector start]
    simp [Clear]

/-- Where no `_` comes next there is none to skip. -/
theorem clear_skip {q : Text} (clear : Clear q) : skipBars q = q := by
  cases q with
  | nil => rfl
  | cons ch rest =>
    apply skipBars_cons
    intro bar
    exact clear (by rw [bar]; rfl)

/-- Trailing `_` belong to the payload as well as to what follows it. -/
theorem payload_trailing {p q r : Text} {bs : List UInt8} (derived : Payload p bs q)
    (bars : Bars q r) : Payload p bs r := by
  induction derived with
  | done p => exact payload_bars bars (.done r)
  | bar derived ih => exact .bar (ih bars)
  | hex first ordinary derived ih => exact .hex first ordinary (ih bars)
  | bin first derived ih => exact .bin first (ih bars)
  | ascii first closed derived ih => exact .ascii first closed (ih bars)

/-- Letters and digits, at least one. -/
structure Letters (run : Text) : Prop where
  some : run ≠ []
  alnum : ∀ c ∈ run, c ∈ alnums

/-- An ASCII run denotes itself: its bytes are its characters, all of them letters or
digits. -/
theorem plus_letters {p q : Text} {bs : List UInt8} (derived : Plus AsciiByte p bs q) :
    p = bs ++ q ∧ Letters bs := by
  induction derived with
  | one first =>
    cases first with
    | alnum q member => exact ⟨rfl, by simp, by simpa using member⟩
  | more first others ih =>
    cases first with
    | alnum q member =>
      obtain ⟨rfl, letters⟩ := ih
      exact ⟨rfl, by simp, List.forall_mem_cons.mpr ⟨member, letters.alnum⟩⟩

/-- Letters and digits are an ASCII run in front of anything. -/
theorem letters_plus {run : Text} (letters : Letters run) : Takes (Plus AsciiByte) run run := by
  intro q
  induction run with
  | nil => exact absurd rfl letters.some
  | cons c run ih =>
    obtain ⟨first, others⟩ := List.forall_mem_cons.mp letters.alnum
    cases run with
    | nil => exact .one (.alnum q first)
    | cons d run => exact .more (.alnum _ first) (ih ⟨by simp, others⟩)

/-- The end of the text cuts the payload off in an ASCII group: a shorter payload is
followed by an `a` and letters or digits. -/
def CutOff (p : Text) (bs : List UInt8) : Prop :=
  ∃ u run front, p = u ++ byte 'a' :: run ∧ bs = front ++ run ∧ Letters run ∧ Takes Payload u front

/-- What a payload from `p` on is, when `q` is behind it. -/
def SpanOrCut (p : Text) (bs : List UInt8) (q : Text) : Prop :=
  (∃ u, p = u ++ q ∧ Takes Payload u bs) ∨ (q = [] ∧ CutOff p bs)

/-- A group that does not look at what follows it leaves a payload what it is behind the
group. -/
theorem group_span (w : Text) (bs : List UInt8) {r q : Text} {more : List UInt8}
    (joins : ∀ s t v, Payload s v t → Payload (w ++ s) (bs ++ v) t) (behind : SpanOrCut r more q) :
    SpanOrCut (w ++ r) (bs ++ more) q := by
  rcases behind with ⟨u, rfl, takes⟩ | ⟨finished, u, run, front, rfl, rfl, letters, takes⟩
  · refine Or.inl ⟨w ++ u, by simp, ?_⟩
    intro t
    rw [List.append_assoc]
    exact joins _ _ _ (takes t)
  · refine Or.inr ⟨finished, w ++ u, run, bs ++ front, by simp, by simp, letters, ?_⟩
    intro t
    rw [List.append_assoc]
    exact joins _ _ _ (takes t)

/-- An ASCII group with a `_` behind it is closed, so it leaves a payload what it is
behind the group. -/
theorem ascii_span {run r q : Text} {more : List UInt8} (letters : Letters run)
    (bar : r.head? = some (byte '_')) (clear : Clear q) (behind : SpanOrCut r more q) :
    SpanOrCut (byte 'a' :: (run ++ r)) (run ++ more) q := by
  have joins : ∀ u v, u.head? = some (byte '_') → Takes Payload u v →
      Takes Payload (byte 'a' :: (run ++ u)) (run ++ v) := by
    intro u v closed takes t
    rw [List.cons_append, List.append_assoc]
    refine .ascii (letters_plus letters _) (Or.inr ?_) (takes t)
    rw [List.head?_append, closed]
    rfl
  rcases behind with ⟨u, rfl, takes⟩ | ⟨finished, u, last, front, rfl, rfl, others, takes⟩
  · cases u with
    | nil => exact absurd bar clear
    | cons ch u =>
      exact Or.inl ⟨byte 'a' :: (run ++ ch :: u), by simp, joins (ch :: u) more bar takes⟩
  · cases u with
    | nil => simp at bar
    | cons ch u =>
      exact Or.inr ⟨finished, byte 'a' :: (run ++ ch :: u), last, run ++ front, by simp, by simp,
        others, joins (ch :: u) front bar takes⟩

/-- A payload is a span, unless the end of the text cuts it off. -/
theorem payload_span {p q : Text} {bs : List UInt8} (derived : Payload p bs q) (clear : Clear q) :
    SpanOrCut p bs q := by
  induction derived with
  | done p => exact Or.inl ⟨[], rfl, fun r => .done r⟩
  | bar derived ih =>
    exact group_span [byte '_'] [] (fun s t v read => .bar read) (ih clear)
  | @hex p q r b bs more first ordinary derived ih =>
    obtain ⟨u, rfl, takes⟩ := plus_spans hexByte_spans _ _ _ first
    refine group_span (byte 'h' :: u) (b :: bs) ?_ (ih clear)
    intro s t v read
    exact .hex (takes s) ordinary read
  | @bin p q r bs more first derived ih =>
    obtain ⟨u, rfl, takes⟩ := plus_spans octet_spans _ _ _ first
    refine group_span (byte 'b' :: u) bs ?_ (ih clear)
    intro s t v read
    exact .bin (takes s) read
  | @ascii p q r bs more first closed derived ih =>
    obtain ⟨rfl, letters⟩ := plus_letters first
    rcases closed with finished | bar
    · -- the group reaches the end of the text, and nothing comes behind it
      subst finished
      cases derived with
      | done =>
        refine Or.inr ⟨rfl, [], bs, [], by simp, by simp, letters, ?_⟩
        exact fun t => .done t
    · exact ascii_span letters bar clear (ih clear)

/-! ## Commands -/

/-- Commands one after the other, with any `_` in front of them and behind them. -/
def Segment : Nonterminal (List TwiCmd) := fun p cs r => ∃ q, Cmds p cs q ∧ Bars q r

/-- No commands may have any `_` around them. -/
theorem segment_nil {p r : Text} (bars : Bars p r) : Segment p [] r := ⟨p, .done p, bars⟩

/-- More `_` in front of a segment belong to it. -/
theorem segment_bars {p q r : Text} {cs : List TwiCmd} (bars : Bars p q) (segment : Segment q cs r) :
    Segment p cs r := by
  obtain ⟨s, derived, behind⟩ := segment
  cases derived with
  | done => exact segment_nil (bars_trans bars behind)
  | cmd more first others => exact ⟨s, .cmd (bars_trans bars more) first others, behind⟩

/-- A command in front of a segment is its first one. -/
theorem segment_cons {p q r : Text} {c : TwiCmd} {cs : List TwiCmd} (first : Cmd p c q)
    (others : Segment q cs r) : Segment p (c :: cs) r := by
  obtain ⟨s, derived, behind⟩ := others
  exact ⟨s, .cmd (.done p) first derived, behind⟩

/-- Two segments in a row are one. By induction on the first. -/
theorem segment_append {p q r : Text} {cs ds : List TwiCmd} (first : Segment p cs q)
    (second : Segment q ds r) : Segment p (cs ++ ds) r := by
  obtain ⟨s, derived, behind⟩ := first
  induction derived with
  | done p => exact segment_bars behind second
  | cmd bars command others ih => exact segment_bars bars (segment_cons command (ih behind))

/-- Behind the `_` that were skipped no other comes next. -/
theorem skipBars_clear (p : Text) : Clear (skipBars p) := by
  fun_induction skipBars p with
  | case1 => exact clear_nil
  | case2 rest ih => exact ih
  | case3 ch rest other =>
    intro bar
    exact other (Option.some.inj bar)

/-- The `_` in front of a segment may be skipped, if none comes behind it. -/
theorem segment_skip {p r : Text} {cs : List TwiCmd} (segment : Segment p cs r) (clear : Clear r) :
    Segment (skipBars p) cs r := by
  obtain ⟨s, derived, behind⟩ := segment
  cases derived with
  | done =>
    rw [skipBars_bars behind, clear_skip clear]
    exact segment_nil (.done r)
  | cmd bars first others =>
    rw [skipBars_bars bars, startsCmd_skip (cmd_start first)]
    exact ⟨s, .cmd (.done _) first others, behind⟩

/-- A line of commands begins with one and has nothing behind the last one but `_`. -/
theorem chain_iff {p : Text} {cs : List TwiCmd} :
    Chain p cs ↔ startsCmd p = true ∧ Segment p cs [] := by
  constructor
  · intro derived
    cases derived with
    | line first others bars => exact ⟨cmd_start first, _, .cmd (.done _) first others, bars⟩
  · rintro ⟨start, s, derived, behind⟩
    cases derived with
    | done =>
      have finished := skipBars_bars behind
      rw [startsCmd_skip start] at finished
      simp [finished, skipBars, startsCmd] at start
    | cmd bars first others =>
      have same := skipBars_bars bars
      rw [startsCmd_skip start, startsCmd_skip (cmd_start first)] at same
      subst same
      exact .line first others behind

/-- The commands are cut off by the end of the text: they are those of a shorter
text that ends in a write, followed by an `a` and letters or digits, which the
write's payload gains. -/
def CutOffCmds (p : Text) (cs : List TwiCmd) : Prop :=
  ∃ u run before ctrl addr front, p = u ++ byte 'a' :: run ∧ Letters run ∧
    cs = before ++ [.write ctrl addr (front ++ run)] ∧
    Takes Segment u (before ++ [.write ctrl addr front])

/-- A command in front of others, once the `_` behind a payload are counted to it. -/
theorem segment_first {p r : Text} {c : TwiCmd} {cs : List TwiCmd} (segment : Segment p (c :: cs) r)
    (clear : Clear r) :
    ∃ q s, Bars p q ∧ Segment s cs r ∧
      ((∃ u, q = u ++ s ∧ Takes Cmd u c) ∨
        (s = [] ∧ ∃ u run ctrl addr front, q = u ++ byte 'a' :: run ∧ Letters run ∧
          c = .write ctrl addr (front ++ run) ∧ Takes Cmd u (.write ctrl addr front))) := by
  obtain ⟨t, derived, behind⟩ := segment
  cases derived with
  | @cmd _ q s _ _ _ bars first others =>
    cases first with
    | @write d ctrl addr p' q' r' bs named iaddr payload =>
      have whole := payload_trailing payload (bars_skip s)
      have after : Segment (skipBars s) cs r := segment_skip ⟨t, others, behind⟩ clear
      obtain ⟨a, rfl, reads⟩ := iaddr_spans _ _ _ iaddr
      refine ⟨_, skipBars s, bars, after, ?_⟩
      rcases payload_span whole (skipBars_clear s) with
        ⟨u, text, takes⟩ | ⟨finished, u, run, front, text, rfl, letters, takes⟩
      · left
        refine ⟨byte 'h' :: byte 'A' :: d :: (a ++ u), by simp [text], ?_⟩
        intro x
        rw [List.cons_append, List.cons_append, List.cons_append, List.append_assoc]
        exact .write named (reads _) (takes x)
      · right
        refine ⟨finished, byte 'h' :: byte 'A' :: d :: (a ++ u), run, ctrl, addr, front,
          by simp [text], letters, rfl, ?_⟩
        intro x
        rw [List.cons_append, List.cons_append, List.cons_append, List.append_assoc]
        exact .write named (reads _) (takes x)
    | @read d ctrl addr p' q' r' s n fmt named iaddr skipped tail =>
      obtain ⟨a, rfl, reads⟩ := iaddr_spans _ _ _ iaddr
      obtain ⟨b, rfl, passes⟩ := bars_span skipped
      obtain ⟨v, rfl, takes⟩ := tail_spans _ _ _ tail
      refine ⟨_, s, bars, ⟨t, others, behind⟩, Or.inl
        ⟨byte 'h' :: byte 'A' :: d :: (a ++ (b ++ v)), by simp, ?_⟩⟩
      intro x
      rw [List.cons_append, List.cons_append, List.cons_append, List.append_assoc,
        List.append_assoc]
      exact .read named (reads _) (passes _) (takes x)

/-- Commands are a span, unless the end of the text cuts them off. -/
theorem segment_span {p r : Text} {cs : List TwiCmd} (segment : Segment p cs r) (clear : Clear r) :
    (∃ u, p = u ++ r ∧ Takes Segment u cs) ∨ (r = [] ∧ CutOffCmds p cs) := by
  induction cs generalizing p with
  | nil =>
    obtain ⟨s, derived, behind⟩ := segment
    cases derived with
    | done =>
      obtain ⟨u, text, passes⟩ := bars_span behind
      exact Or.inl ⟨u, text, fun t => segment_nil (passes t)⟩
  | cons c cs ih =>
    obtain ⟨q, s, bars, others, first⟩ := segment_first segment clear
    obtain ⟨w, rfl, passes⟩ := bars_span bars
    rcases first with ⟨u, rfl, takes⟩ | ⟨rfl, u, run, ctrl, addr, front, rfl, letters, rfl, takes⟩
    · have joins : ∀ v ds, Takes Segment v ds → Takes Segment (w ++ (u ++ v)) (c :: ds) := by
        intro v ds reads t
        rw [List.append_assoc, List.append_assoc]
        exact segment_bars (passes _) (segment_cons (takes _) (reads t))
      rcases ih others with ⟨v, rfl, reads⟩ | ⟨finished, v, run, before, ctrl, addr, front, rfl,
        letters, rfl, reads⟩
      · exact Or.inl ⟨w ++ (u ++ v), by simp, joins v cs reads⟩
      · exact Or.inr ⟨finished, w ++ (u ++ v), run, c :: before, ctrl, addr, front, by simp, letters,
          rfl, joins v _ reads⟩
    · -- nothing is left behind the command that is cut off
      obtain ⟨s, derived, behind⟩ := others
      cases derived with
      | done =>
        cases behind with
        | done =>
          refine Or.inr ⟨rfl, w ++ u, run, [], ctrl, addr, front, by simp, letters, rfl, ?_⟩
          intro t
          rw [List.append_assoc]
          exact segment_bars (passes _) (segment_cons (takes t) (segment_nil (.done t)))
      | cmd bars first others =>
        have start := cmd_start first
        have empty : skipBars ([] : Text) = _ := skipBars_bars bars
        rw [startsCmd_skip start] at empty
        rw [← empty] at start
        simp [skipBars, startsCmd] at start

end NeoSfp
