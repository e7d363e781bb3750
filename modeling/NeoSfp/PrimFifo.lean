import Mathlib

/-!
# The FIFO primitive

A ring buffer between two pointers that are one bit wider than an address. With more
than one entry its read port comes out of registers, which show what was in the memory
a cycle ago; the reader has to allow for that.
-/

namespace NeoSfp

/-- The pointers, the memory core, and the registers of the read port. -/
structure PrimFifo (awidth : Nat) (α : Type) where
  fifo : BitVec awidth → α
  wPnt : BitVec (awidth + 1)
  rPnt : BitVec (awidth + 1)
  availFf : Bool
  rdataFf : α

/-- What the ports are given in a cycle. -/
structure FifoPorts (α : Type) where
  clear : Bool := false
  wdata : α
  we : Bool := false
  re : Bool := false
deriving DecidableEq, Repr

namespace PrimFifo

variable {awidth : Nat} {α : Type}

/-! ## Status and data -/

/-- With a single entry the pointers are single bits, and their low parts agree. -/
def low (pnt : BitVec (awidth + 1)) : BitVec awidth := pnt.setWidth awidth

/-- The pointers are at the same entry, a round apart. -/
def full (f : PrimFifo awidth α) : Bool :=
  f.rPnt.msb != f.wPnt.msb && low f.rPnt == low f.wPnt

/-- The pointers are at the same entry, in the same round. -/
def empty (f : PrimFifo awidth α) : Bool :=
  f.rPnt.msb == f.wPnt.msb && low f.rPnt == low f.wPnt

/-- There is room for a word. -/
def freeO (f : PrimFifo awidth α) : Bool := !f.full

/-- A word is there to be read. With more than one entry this is told a cycle late. -/
def availO (f : PrimFifo awidth α) : Bool := if awidth = 0 then !f.empty else f.availFf

/-- The word that is there to be read. With more than one entry it is shown a cycle
late. -/
def rdataO (f : PrimFifo awidth α) : α := if awidth = 0 then f.fifo (low f.rPnt) else f.rdataFf

/-! ## A clock cycle -/

/-- A clock cycle. A write to a full ring and a read of an empty one do nothing, and a
clear sets both pointers back. -/
def step (p : FifoPorts α) (f : PrimFifo awidth α) : PrimFifo awidth α where
  fifo := if p.we && !f.full && !p.clear then Function.update f.fifo (low f.wPnt) p.wdata else f.fifo
  wPnt := if p.clear then 0 else if p.we && !f.full then f.wPnt + 1 else f.wPnt
  rPnt := if p.clear then 0 else if p.re && !f.empty then f.rPnt + 1 else f.rPnt
  availFf := !f.empty
  rdataFf := f.fifo (low f.rPnt)

/-- Several clock cycles. -/
def run : PrimFifo awidth α → List (FifoPorts α) → PrimFifo awidth α
  | f, [] => f
  | f, p :: ports => run (f.step p) ports

/-- The words that find a free entry. -/
def accepted : PrimFifo awidth α → List (FifoPorts α) → List α
  | _, [] => []
  | f, p :: ports => (if p.we && f.freeO then [p.wdata] else []) ++ accepted (f.step p) ports

/-- What is at the read port whenever it is read. -/
def taken : PrimFifo awidth α → List (FifoPorts α) → List α
  | _, [] => []
  | f, p :: ports => (if p.re then [f.rdataO] else []) ++ taken (f.step p) ports

/-- The reader reads only what is shown to be there, and not right behind a read. -/
def Awaits (justRead : Bool) : PrimFifo awidth α → List (FifoPorts α) → Prop
  | _, [] => True
  | f, p :: ports =>
    (p.re = true → f.availO = true ∧ justRead = false) ∧ Awaits p.re (f.step p) ports

/-! ## The queue in the ring -/

/-- The words between the pointers, the oldest one first. -/
structure Holds (f : PrimFifo awidth α) (q : List α) : Prop where
  room : q.length ≤ 2 ^ awidth
  distance : f.wPnt = f.rPnt + BitVec.ofNat (awidth + 1) q.length
  words : ∀ (i : Nat) (inside : i < q.length), f.fifo (low (f.rPnt + BitVec.ofNat _ i)) = q[i]

/-- What a cycle does to the words. -/
def moved (depth : Nat) (p : FifoPorts α) (q : List α) : List α :=
  if p.clear then []
  else (if p.re then q.tail else q) ++ (if p.we ∧ q.length < depth then [p.wdata] else [])

/-- The low part of a sum of pointers is the sum of their low parts, as the carry goes
upwards. -/
theorem low_add (a b : BitVec (awidth + 1)) : low (a + b) = low a + low b :=
  BitVec.setWidth_add a b (Nat.le_succ awidth)

/-- The low part of a number is the number of so many bits less. -/
theorem low_ofNat (n : Nat) : low (BitVec.ofNat (awidth + 1) n) = BitVec.ofNat awidth n := by
  apply BitVec.eq_of_toNat_eq
  simp [low]

/-- A pointer is its low part and its first bit, and the flags of the FIFO look at just
these two. -/
theorem pnt_ext {a b : BitVec (awidth + 1)} (msb : a.msb = b.msb) (same : low a = low b) : a = b := by
  apply BitVec.eq_of_getLsbD_eq
  intro i inside
  by_cases last : i = awidth
  · subst last
    rw [BitVec.msb_eq_getLsbD_last, BitVec.msb_eq_getLsbD_last] at msb
    exact msb
  · have bit := congrArg (fun v => v.getLsbD i) same
    simp only [low, BitVec.getLsbD_setWidth] at bit
    have below : i < awidth := by omega
    simpa only [below, decide_true, Bool.true_and] using bit

/-- Two places of the ring of one address are as many words apart as the ring has
entries, or none: their distance is a multiple of its size. -/
theorem low_distance {r : BitVec (awidth + 1)} {n : Nat}
    (same : low r = low (r + BitVec.ofNat (awidth + 1) n)) : 2 ^ awidth ∣ n := by
  rw [low_add, low_ofNat, left_eq_add] at same
  have zero : n % 2 ^ awidth = 0 := congrArg BitVec.toNat same
  exact Nat.dvd_of_mod_eq_zero zero

/-- No more words apart than the ring has entries, the pointers tell by their extra bit
whether they have the same place or have lapped. -/
theorem distance_zero {r : BitVec (awidth + 1)} {n : Nat} (room : n ≤ 2 ^ awidth)
    (same : r = r + BitVec.ofNat (awidth + 1) n) : n = 0 := by
  rw [left_eq_add] at same
  have zero : n % 2 ^ (awidth + 1) = 0 := congrArg BitVec.toNat same
  have wide : 2 ^ awidth < 2 ^ (awidth + 1) := Nat.pow_lt_pow_right (by omega) (Nat.lt_succ_self _)
  rw [Nat.mod_eq_of_lt (by omega)] at zero
  exact zero

variable {f : PrimFifo awidth α} {q : List α} {p : FifoPorts α}

/-- The ring is empty by its flags exactly if it holds no words. Equal pointers are no
words apart, since a full ring differs in the first bit. -/
theorem holds_empty (holds : Holds f q) : f.empty = decide (q = []) := by
  rw [Bool.eq_iff_iff, decide_eq_true_iff, empty, Bool.and_eq_true, beq_iff_eq, beq_iff_eq]
  constructor
  · rintro ⟨msb, same⟩
    have equal := pnt_ext msb same
    rw [holds.distance] at equal
    exact List.eq_nil_of_length_eq_zero (distance_zero holds.room equal)
  · rintro rfl
    have equal : f.wPnt = f.rPnt := holds.distance.trans (BitVec.add_zero _)
    exact ⟨by rw [equal], by rw [equal]⟩

/-- The ring is full by its flags exactly if it holds as many words as it has entries;
then the pointers agree but for the first bit. -/
theorem holds_full (holds : Holds f q) : f.full = decide (q.length = 2 ^ awidth) := by
  have positive : 0 < 2 ^ awidth := Nat.two_pow_pos awidth
  rw [Bool.eq_iff_iff, decide_eq_true_iff, full, Bool.and_eq_true, bne_iff_ne, beq_iff_eq,
    holds.distance]
  constructor
  · rintro ⟨msb, same⟩
    obtain ⟨laps, around⟩ := low_distance same
    have nonempty : q.length ≠ 0 := by
      intro none
      rw [none] at msb
      exact msb (by rw [BitVec.add_zero])
    have room := holds.room
    rw [around] at room nonempty ⊢
    have once : laps = 1 := by
      have most : laps ≤ 1 := Nat.le_of_mul_le_mul_left (by omega) positive
      have least : laps ≠ 0 := by
        rintro rfl
        exact nonempty (Nat.mul_zero _)
      omega
    rw [once, Nat.mul_one]
  · intro all
    have same : low f.rPnt = low (f.rPnt + BitVec.ofNat (awidth + 1) q.length) := by
      rw [low_add, low_ofNat, all, left_eq_add]
      exact BitVec.eq_of_toNat_eq (Nat.mod_self _)
    refine ⟨?_, same⟩
    intro msb
    have none := distance_zero holds.room (pnt_ext msb same)
    omega

/-- So there is room exactly if it holds fewer. -/
theorem holds_free (holds : Holds f q) : f.freeO = decide (q.length < 2 ^ awidth) := by
  have room := holds.room
  rw [freeO, holds_full holds, ← decide_not, decide_eq_decide]
  omega

/-- A word is written behind the last one, where there is room. The entry it takes is
none of those that hold words, or the distance would be a multiple of the size. -/
theorem holds_write {wdata : α} (holds : Holds f q) (free : q.length < 2 ^ awidth) :
    Holds { f with fifo := Function.update f.fifo (low f.wPnt) wdata, wPnt := f.wPnt + 1 }
      (q ++ [wdata]) where
  room := by
    rw [List.length_append, List.length_singleton]
    exact free
  distance := by
    rw [List.length_append, List.length_singleton, BitVec.ofNat_add, ← BitVec.add_assoc,
      ← holds.distance]
    rfl
  words := by
    intro i inside
    rw [List.length_append, List.length_singleton] at inside
    change Function.update f.fifo (low f.wPnt) wdata (low (f.rPnt + BitVec.ofNat _ i)) = _
    by_cases last : i = q.length
    · subst last
      rw [← holds.distance, Function.update_self, List.getElem_concat_length rfl]
    · have before : i < q.length := by omega
      have apart : low (f.rPnt + BitVec.ofNat _ i) ≠ low f.wPnt := by
        intro same
        have split : f.wPnt = f.rPnt + BitVec.ofNat _ i + BitVec.ofNat (awidth + 1) (q.length - i) := by
          rw [holds.distance, BitVec.add_assoc, ← BitVec.ofNat_add]
          congr 2
          omega
        rw [split] at same
        have far := Nat.le_of_dvd (by omega) (low_distance same)
        omega
      rw [Function.update_of_ne apart, holds.words i before, List.getElem_append_left before]

/-- The oldest word is gone when the read pointer moves on, and the others keep their
entries. -/
theorem holds_read (holds : Holds f q) (nonempty : q ≠ []) :
    Holds { f with rPnt := f.rPnt + 1 } q.tail := by
  obtain ⟨word, rest, rfl⟩ := List.exists_cons_of_ne_nil nonempty
  have onward : ∀ i, f.rPnt + 1 + BitVec.ofNat (awidth + 1) i =
      f.rPnt + BitVec.ofNat (awidth + 1) (i + 1) := by
    intro i
    rw [BitVec.add_assoc, Nat.add_comm i 1, BitVec.ofNat_add]
    rfl
  constructor
  · have room := holds.room
    rw [List.length_cons] at room
    rw [List.tail_cons]
    omega
  · rw [List.tail_cons, onward, holds.distance, List.length_cons]
  · intro i inside
    have word := holds.words (i + 1) (by simpa using inside)
    rw [← onward] at word
    exact word

/-- Only the pointers and the memory core count for what the ring holds; the registers
of the read port do not. -/
theorem holds_same {g : PrimFifo awidth α} (holds : Holds f q) (fifo : g.fifo = f.fifo)
    (wPnt : g.wPnt = f.wPnt) (rPnt : g.rPnt = f.rPnt) : Holds g q := by
  obtain ⟨room, distance, words⟩ := holds
  constructor
  · exact room
  · rw [wPnt, rPnt, distance]
  · intro i inside
    rw [fifo, rPnt, words i inside]

/-- Equal pointers hold nothing, whatever is left in the memory core. This is the state
behind a reset and behind a clear. -/
theorem holds_clear (pnt : f.rPnt = f.wPnt) : Holds f [] where
  room := Nat.zero_le _
  distance := pnt.symm.trans (BitVec.add_zero _).symm
  words := by
    intro i inside
    exact absurd inside (Nat.not_lt_zero i)

/-- What a cycle does to the words: a clear drops them all; otherwise a read takes the
oldest one and a write adds one if there is room, both at once if both are asked for. -/
theorem step_holds (p : FifoPorts α) (holds : Holds f q) :
    Holds (f.step p) (moved (2 ^ awidth) p q) := by
  rw [moved]
  split
  case isTrue clear => exact holds_clear (by simp [step, clear])
  case isFalse keeps =>
    let wrote : PrimFifo awidth α :=
      { f with
        fifo := if p.we && !f.full then Function.update f.fifo (low f.wPnt) p.wdata else f.fifo
        wPnt := if p.we && !f.full then f.wPnt + 1 else f.wPnt }
    have written : Holds wrote (q ++ if p.we ∧ q.length < 2 ^ awidth then [p.wdata] else []) := by
      have free := holds_free holds
      rw [freeO, Bool.eq_iff_iff, decide_eq_true_iff] at free
      by_cases write : p.we ∧ q.length < 2 ^ awidth
      · rw [if_pos write]
        have go : (p.we && !f.full) = true := by rw [Bool.and_eq_true, write.1, free.mpr write.2]; simp
        exact holds_same (holds_write holds write.2) (if_pos go) (if_pos go) rfl
      · rw [if_neg write, List.append_nil]
        have stay : ¬ (p.we && !f.full) = true := by rwa [Bool.and_eq_true, free]
        exact holds_same holds (if_neg stay) (if_neg stay) rfl
    have fifo : (f.step p).fifo = wrote.fifo := by simp [step, wrote, keeps]
    have wPnt : (f.step p).wPnt = wrote.wPnt := by simp [step, wrote, keeps]
    have isEmpty := holds_empty holds
    cases q with
    | nil =>
      have rPnt : (f.step p).rPnt = f.rPnt := by simp [step, keeps, isEmpty]
      have none : (if p.re = true then ([] : List α).tail else []) = [] := by split <;> rfl
      rw [none]
      exact holds_same written fifo wPnt rPnt
    | cons word rest =>
      have rPnt : (f.step p).rPnt = if p.re then f.rPnt + 1 else f.rPnt := by simp [step, keeps, isEmpty]
      cases re : p.re with
      | false =>
        rw [re] at rPnt
        exact holds_same written fifo wPnt rPnt
      | true =>
        rw [re] at rPnt
        exact holds_same (holds_read written (by simp)) fifo wPnt rPnt

/-! ## The read port -/

/-- The oldest word shows a cycle after it is there, since the flag of the read port is
a register. -/
theorem step_avail (p : FifoPorts α) (holds : Holds f q) (large : awidth ≠ 0) :
    (f.step p).availO = decide (q ≠ []) := by
  rw [availO, if_neg large, step, holds_empty holds, decide_not]

/-- And with the flag its data show. -/
theorem step_rdata (p : FifoPorts α) {word : α} {rest : List α} (holds : Holds f (word :: rest))
    (large : awidth ≠ 0) : (f.step p).rdataO = word := by
  have first := holds.words 0 (Nat.zero_lt_succ _)
  rw [rdataO, if_neg large, step]
  simpa using first

/-- With a single entry there is no register, and the word shows at once. -/
theorem small_avail (holds : Holds f q) (small : awidth = 0) : f.availO = decide (q ≠ []) := by
  rw [availO, if_pos small, holds_empty holds, decide_not]

/-- The same for its data. -/
theorem small_rdata {word : α} {rest : List α} (holds : Holds f (word :: rest)) (small : awidth = 0) :
    f.rdataO = word := by
  have first := holds.words 0 (Nat.zero_lt_succ _)
  rw [rdataO, if_pos small]
  simpa using first

/-- What the read port shows is the oldest word. -/
def Shows (f : PrimFifo awidth α) (q : List α) : Prop :=
  f.availO = true → ∃ rest, q = f.rdataO :: rest

/-- Behind a cycle without a read the port tells the truth: what it shows is the oldest
word. Behind a read it may still show the word that has just been taken, so that a
reader must let a cycle pass. -/
theorem step_shows (holds : Holds f q) (keeps : p.clear = false) (still : p.re = false) :
    Shows (f.step p) (moved (2 ^ awidth) p q) := by
  intro avail
  by_cases small : awidth = 0
  · have after := step_holds p holds
    rw [small_avail after small, decide_eq_true_iff] at avail
    obtain ⟨word, rest, split⟩ := List.exists_cons_of_ne_nil avail
    rw [split] at after ⊢
    exact ⟨rest, by rw [small_rdata after small]⟩
  · rw [step_avail p holds small, decide_eq_true_iff] at avail
    obtain ⟨word, rest, rfl⟩ := List.exists_cons_of_ne_nil avail
    simp only [moved, keeps, still, step_rdata p holds small, Bool.false_eq_true, if_false,
      List.cons_append]
    exact ⟨_, rfl⟩

/-- A whole run, by induction on its cycles. What is in the ring is kept with the words
taken and the words accepted, and what the port shows is the oldest word whenever the
reader may read. -/
theorem run_delivers (justRead : Bool) (ports : List (FifoPorts α)) (holds : Holds f q)
    (shows : justRead = false → Shows f q) (keeps : ∀ p ∈ ports, p.clear = false)
    (awaits : Awaits justRead f ports) :
    ∃ q', Holds (run f ports) q' ∧ q ++ accepted f ports = taken f ports ++ q' := by
  induction ports generalizing f q justRead with
  | nil => exact ⟨q, holds, List.append_nil q⟩
  | cons p ports ih =>
    obtain ⟨kept, others⟩ := List.forall_mem_cons.mp keeps
    obtain ⟨allowed, onward⟩ := awaits
    obtain ⟨q', holds', delivered⟩ := ih p.re (step_holds p holds)
      (step_shows holds kept) others onward
    refine ⟨q', holds', ?_⟩
    have pushed : (if p.we && f.freeO then [p.wdata] else []) =
        if p.we ∧ q.length < 2 ^ awidth then [p.wdata] else [] := by
      simp only [holds_free holds, Bool.and_eq_true, decide_eq_true_iff]
    have popped : q = (if p.re then [f.rdataO] else []) ++ if p.re then q.tail else q := by
      cases re : p.re with
      | false => rfl
      | true =>
        obtain ⟨avail, before⟩ := allowed re
        obtain ⟨rest, split⟩ := shows before avail
        rw [split]
        rfl
    rw [moved, if_neg (by simp [kept])] at delivered
    rw [accepted, taken, pushed, List.append_assoc, ← delivered, ← List.append_assoc,
      ← List.append_assoc, ← List.append_assoc, ← popped]

end PrimFifo

/-- The FIFO loses no word, repeats none and keeps their order, at any depth and for any
writer: behind the words that have been taken, those still in the ring are the rest of
the words that have been accepted. The reader reads what is shown, and not right behind
a read. The invariant relates the ring and its two counters to the words in it, and each
cycle keeps it. -/
theorem primFifo_delivers {awidth : Nat} {α : Type} (f : PrimFifo awidth α) (cleared : f.rPnt = f.wPnt)
    (dark : f.availFf = false) (ports : List (FifoPorts α)) (keeps : ∀ p ∈ ports, p.clear = false)
    (awaits : PrimFifo.Awaits false f ports) :
    ∃ q, PrimFifo.Holds (f.run ports) q ∧ f.accepted ports = f.taken ports ++ q := by
  have holds := PrimFifo.holds_clear cleared
  have shows : PrimFifo.Shows f [] := by
    intro avail
    by_cases small : awidth = 0
    · simp [PrimFifo.small_avail holds small] at avail
    · simp [PrimFifo.availO, small, dark] at avail
  exact PrimFifo.run_delivers false ports holds (fun _ => shows) keeps awaits

/-- Three writes into two entries, and a read. -/
def crowdedPorts : List (FifoPorts UInt8) :=
  [{ wdata := 1, we := true }, { wdata := 2, we := true }, { wdata := 3, we := true, re := true }]

/-- A ring of two entries that has been cleared. -/
def clearedFifo : PrimFifo 1 UInt8 := ⟨fun _ => 0, 0, 0, false, 0⟩

example : clearedFifo.accepted crowdedPorts = [1, 2] ∧ clearedFifo.taken crowdedPorts = [1] := by
  decide

/-- Two entries that are given three words: the third finds no room in its cycle,
although a word is taken in it. -/
theorem primFifo_delivers_crowded :
    ∃ q, PrimFifo.Holds (clearedFifo.run crowdedPorts) q ∧
      clearedFifo.accepted crowdedPorts = clearedFifo.taken crowdedPorts ++ q :=
  primFifo_delivers clearedFifo rfl rfl crowdedPorts (by decide)
    ⟨by decide, by decide, fun _ => ⟨by decide, rfl⟩, trivial⟩

end NeoSfp
