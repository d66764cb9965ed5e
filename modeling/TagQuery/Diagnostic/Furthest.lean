import TagQuery.Diagnostic.Expected

/-!
# The furthest failure

Of all the places where a token was not found, only the furthest one matters to a reader.
`Furthest` keeps that offset and the tokens expected there, each once, in the order in which they
were first asked for.

The tokens are a set that keeps the order of insertion, here a list without duplicates
(`Furthest.nodup_record`).  Of such a set two things are used: an element that is new goes to the
end (`Furthest.record_of_not_mem`), and inserting one that is there already changes nothing, the
order included (`Furthest.record_of_mem`).
-/

namespace TagQuery

/-- The furthest offset of a failure, and what was expected there. -/
structure Furthest where
  offset : Nat := 0
  expected : List Expected := []
deriving DecidableEq, Repr

namespace Furthest

/-- No failure yet. -/
def empty : Furthest := {}

/-- A failure further on replaces what is kept, one at the same offset joins it, and one further
back is dropped. -/
def record (f : Furthest) (offset : Nat) (e : Expected) : Furthest :=
  if f.offset < offset then ⟨offset, [e]⟩
  else if offset = f.offset ∧ e ∉ f.expected then { f with expected := f.expected ++ [e] }
  else f

/-- Nothing has been recorded. -/
def isEmpty (f : Furthest) : Bool := f.expected.isEmpty

@[simp] theorem offset_record (f : Furthest) (offset : Nat) (e : Expected) :
    (f.record offset e).offset = max f.offset offset := by
  unfold record
  split
  · simp only; omega
  · split
    · simp only; omega
    · omega

theorem record_of_lt {f : Furthest} {offset : Nat} (e : Expected) (h : f.offset < offset) :
    f.record offset e = ⟨offset, [e]⟩ := if_pos h

theorem record_of_gt {f : Furthest} {offset : Nat} (e : Expected) (h : offset < f.offset) :
    f.record offset e = f := by
  rw [record, if_neg (by omega), if_neg (by omega)]

theorem record_of_mem {f : Furthest} {e : Expected} (h : e ∈ f.expected) :
    f.record f.offset e = f := by
  rw [record, if_neg (by omega), if_neg (by simp [h])]

theorem record_of_not_mem {f : Furthest} {e : Expected} (h : e ∉ f.expected) :
    f.record f.offset e = ⟨f.offset, f.expected ++ [e]⟩ := by
  rw [record, if_neg (by omega), if_pos ⟨rfl, h⟩]

/-- What is kept stays free of duplicates. -/
theorem nodup_record {f : Furthest} (h : f.expected.Nodup) (offset : Nat) (e : Expected) :
    (f.record offset e).expected.Nodup := by
  unfold record
  split
  · simp
  · split
    · rename_i he
      refine List.nodup_append.2 ⟨h, by simp, ?_⟩
      rintro a ha b hb rfl
      obtain rfl := List.mem_singleton.1 hb
      exact he.2 ha
    · exact h

end Furthest

end TagQuery
