/-!
# Spans

A span is a pair of byte offsets in order, each of them an unsigned number of 32 bits.  A parser
states where it read something by a span; offsets beyond the largest such number, `Span.maxOffset`,
are stated as `Span.maxOffset`.

A span has to have its start at or before its stop, and asking for any other is a fault that ends
the computation.

* `Span.new?` and `Span.ofOffsets?` refuse a pair whose start lies beyond its stop, the second one
  after both offsets have been limited; what `none` stands for there is the fault;
* `Span.ofLength` is the span of a piece of text of known length, and never refuses
  (`Span.ofOffsets?_add`).
-/

namespace TagQuery

/-- A range of byte offsets: from `start` up to, but not including, `stop`. -/
structure Span where
  /-- Offset of the first byte. -/
  start : Nat
  /-- Offset after the last byte. -/
  stop : Nat
  start_le_stop : start ≤ stop
deriving DecidableEq, Repr

namespace Span

/-- The largest offset that a parser states in a span. -/
def maxOffset : Nat := 4294967295

/-- An offset as it is stated in a span. -/
def limit (offset : Nat) : Nat := min offset maxOffset

theorem limit_of_le {n : Nat} (h : n ≤ maxOffset) : limit n = n := Nat.min_eq_left h

theorem limit_le_limit {m n : Nat} (h : m ≤ n) : limit m ≤ limit n := by
  unfold limit; omega

/-- The span between two offsets in order. -/
def new? (start stop : Nat) : Option Span :=
  if h : start ≤ stop then some ⟨start, stop, h⟩ else none

/-- The span between two offsets of a text, each limited to `maxOffset`. -/
def ofOffsets? (start stop : Nat) : Option Span := new? (limit start) (limit stop)

/-- The span of `length` bytes that begin at `start`. -/
def ofLength (start length : Nat) : Span :=
  ⟨limit start, limit (start + length), limit_le_limit (Nat.le_add_right ..)⟩

/-- The span moved to the right by `n` bytes. -/
def shift (n : Nat) (s : Span) : Span :=
  ⟨s.start + n, s.stop + n, Nat.add_le_add_right s.start_le_stop n⟩

@[simp] theorem new?_eq_some_iff {i j : Nat} {s : Span} :
    new? i j = some s ↔ s.start = i ∧ s.stop = j := by
  cases s with
  | mk start stop h =>
    unfold new?
    split
    · simp [eq_comm]
    · simp only [reduceCtorEq, false_iff]
      rintro ⟨rfl, rfl⟩
      contradiction

theorem new?_eq_none_iff {i j : Nat} : new? i j = none ↔ j < i := by
  unfold new?; split <;> simp <;> omega

/-- A piece of text has a span whatever its place and length. -/
theorem ofOffsets?_add (start length : Nat) :
    ofOffsets? start (start + length) = some (ofLength start length) :=
  new?_eq_some_iff.2 ⟨rfl, rfl⟩

/-- Within the limit a span begins where its piece of text does. -/
theorem start_ofLength {start length : Nat} (h : start + length ≤ maxOffset) :
    (ofLength start length).start = start := limit_of_le (by omega)

theorem stop_ofLength {start length : Nat} (h : start + length ≤ maxOffset) :
    (ofLength start length).stop = start + length := limit_of_le h

/-- Within the limit a span moves with its piece of text. -/
theorem shift_ofLength {start length n : Nat} (h : start + length + n ≤ maxOffset) :
    (ofLength start length).shift n = ofLength (start + n) length := by
  have h₁ : limit start + n = limit (start + n) := by
    rw [limit_of_le (by omega), limit_of_le (by omega)]
  have h₂ : limit (start + length) + n = limit (start + n + length) := by
    rw [limit_of_le (by omega), limit_of_le (by omega)]
    omega
  simp only [shift, ofLength, h₁, h₂]

end Span

end TagQuery
