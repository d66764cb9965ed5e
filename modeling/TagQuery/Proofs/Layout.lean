import TagQuery.Proofs.Reading
import TagQuery.Query.Shift

/-!
# Where the parts of a query stand

The query that is read from a spelling has its parts where the spelling has its pieces.

* What is read from clauses in a row is what is read from each of them at its own offset
  (`ClauseSpelling.partsAll_append`, `ClauseSpelling.exists_of_mem_partsAll`).
* A spelling that stands further to the right is read with all spans moved
  (`QuerySpelling.query_add`), as long as the offsets are within `Span.maxOffset`.
-/

namespace TagQuery

variable {n d : Nat}

namespace OperandSpelling

theorem identifier_add (x : OperandSpelling) (h : n + x.text.size + d ≤ Span.maxOffset) :
    x.identifier (n + d) = (x.identifier n).shift d := by
  rw [size_text] at h
  have hsign : x.negated = true → x.signSize = 1 := fun hx => by simp [signSize, hx]
  have hnegation : (if x.negated then some (.ofLength (n + d) 1) else none : Option Span) =
      (if x.negated then some (.ofLength n 1) else none : Option Span).map (Span.shift d) := by
    split
    · rename_i hx
      have := hsign hx
      rw [Option.map_some, Span.shift_ofLength (by omega)]
    · rfl
  rw [identifier, identifier, Identifier.shift, TagMatch.shift, hnegation,
    Span.shift_ofLength (by omega), Span.shift_ofLength (by rw [size_text]; omega),
    Nat.add_right_comm]

end OperandSpelling

namespace ClauseSpelling

theorem parts_add (x : ClauseSpelling) (h : n + x.text.size + d ≤ Span.maxOffset) :
    x.parts (n + d) = ((x.parts n).1.shift d, (x.parts n).2.shift d) := by
  rw [size_text] at h
  have hlead : x.before + 1 ≤ x.lead := by
    simp only [lead]
    omega
  have hop : Span.ofLength (n + d + x.before) 1 = (Span.ofLength (n + x.before) 1).shift d := by
    rw [Span.shift_ofLength (by omega), Nat.add_right_comm]
  rw [parts, parts, Operator.shift, hop, Nat.add_right_comm n d,
    x.operand.identifier_add (by omega)]

theorem partsAll_add (xs : List ClauseSpelling)
    (h : n + Text.size (xs.flatMap text) + d ≤ Span.maxOffset) :
    partsAll (n + d) xs = (partsAll n xs).map fun c => (c.1.shift d, c.2.shift d) := by
  induction xs generalizing n with
  | nil => rfl
  | cons x xs ih =>
    rw [List.flatMap_cons, Text.size_append] at h
    rw [partsAll, partsAll, List.map_cons, x.parts_add (by omega), Nat.add_right_comm,
      ih (by omega)]

theorem partsAll_append (n : Nat) (xs ys : List ClauseSpelling) :
    partsAll n (xs ++ ys) =
      partsAll n xs ++ partsAll (n + Text.size (xs.flatMap text)) ys := by
  induction xs generalizing n with
  | nil => rfl
  | cons x xs ih =>
    rw [List.cons_append, partsAll, partsAll, ih, List.cons_append, List.flatMap_cons,
      Text.size_append, Nat.add_assoc]

theorem exists_of_mem_partsAll {xs : List ClauseSpelling} {c : Operator × Identifier}
    (hc : c ∈ partsAll n xs) :
    ∃ ys y zs, xs = ys ++ y :: zs ∧ c = y.parts (n + Text.size (ys.flatMap text)) := by
  induction xs generalizing n with
  | nil => simp [partsAll] at hc
  | cons x xs ih =>
    rcases List.mem_cons.1 hc with rfl | hc
    · exact ⟨[], x, xs, rfl, rfl⟩
    · obtain ⟨ys, y, zs, rfl, rfl⟩ := ih hc
      refine ⟨x :: ys, y, zs, rfl, ?_⟩
      rw [List.flatMap_cons, Text.size_append, Nat.add_assoc]

end ClauseSpelling

namespace QuerySpelling

/-- **A query further to the right is read as the same query, moved.** -/
theorem query_add (w : QuerySpelling) (h : n + w.text.size + d ≤ Span.maxOffset) :
    w.query (n + d) = (w.query n).shift d := by
  have hspan := Span.shift_ofLength h
  rw [text, Text.size_append] at h
  rw [query, query, Query.shift, hspan, w.head.identifier_add (by omega), Nat.add_right_comm,
    ClauseSpelling.partsAll_add _ (by omega)]

end QuerySpelling

end TagQuery
