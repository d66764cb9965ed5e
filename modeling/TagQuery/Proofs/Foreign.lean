import TagQuery.Proofs.Starts
import TagQuery.Text.Bisection

/-!
# An index asked about another text

`LineIndex.position` and `LineIndex.lineText` answer for every text, also for another one than that
of the index.  Whether each of their steps is defined there is a question of its own.
`LineIndex.position?` and `LineIndex.lineText?` take the same steps, the search for the line by
bisection among them, and have no answer if a line is looked up that the index does not have or a
larger number is taken from a smaller one.

The order of the starts is all that is needed to see that this does not happen
(`LineIndex.Ordered.position?_eq`, `LineIndex.Ordered.lineText?_eq`): nothing has to be known of the
text.  Slices are taken where the text has them, and are no part of the question.
-/

namespace TagQuery

variable {index : LineIndex} {t : Text} {k n start : Nat}

/-- `m - n`, if `n` is not the larger one. -/
def sub? (m n : Nat) : Option Nat := if n ≤ m then some (m - n) else none

theorem sub?_of_le {m n : Nat} (h : n ≤ m) : sub? m n = some (m - n) := if_pos h

namespace LineIndex

/-! ### Step by step -/

/-- The line that starts at the offset, or else the one before the place at which a line that does
would have to be put. -/
def lineAt? (index : LineIndex) (offset : Nat) : Option Nat :=
  match Search.bisect index.starts offset with
  | .found line => some line
  | .absent next => sub? next 1

/-- The position of an offset, if all steps to it are defined.  The bytes from the start of the line
on are counted in any case. -/
def position? (index : LineIndex) (t : Text) (offset : Nat) : Option Position := do
  let offset := min offset t.size
  let line ← index.lineAt? offset
  let start ← index.lineStart? line
  let bytes ← sub? offset start
  return ⟨line + 1, ((t.slice? start offset).elim bytes List.length) + 1⟩

/-- The text of a line, if all steps to it are defined. -/
def lineText? (index : LineIndex) (t : Text) (line : Nat) : Option Text :=
  match index.lineStart? line with
  | none => some []
  | some start => do
    let stop ← match index.lineStart? (line + 1) with
      | some next => sub? next 1
      | none => some t.size
    return trimReturn ((t.slice? start stop).getD [])

/-! ### Looking up a line -/

theorem cutAt_of_getElem? (h : index.starts.Pairwise (· < ·)) (hk : index.starts[k]? = some n) :
    index.CutAt n (index.starts.take (k + 1)) (index.starts.drop (k + 1)) := by
  obtain ⟨hlt, rfl⟩ := List.getElem?_eq_some_iff.1 hk
  refine ⟨(List.take_append_drop ..).symm, fun a ha => ?_, fun a ha => ?_⟩
  · obtain ⟨j, hj, rfl⟩ := List.mem_take_iff_getElem.1 ha
    exact Search.getElem_le_getElem h hlt (by omega)
  · obtain ⟨j, hj, rfl⟩ := List.mem_drop_iff_getElem.1 ha
    exact List.pairwise_iff_getElem.1 h k _ hlt (by omega) (by omega)

namespace Ordered

variable (h : index.Ordered)
include h

theorem zero_mem : 0 ∈ index.starts := List.mem_of_mem_head? h.head?

/-- Every offset cuts the starts behind the first of them, and the bisection tells where. -/
theorem exists_cutAt (n : Nat) : ∃ ks ls, ks ≠ [] ∧ index.CutAt n ks ls ∧
    index.lineAt? n = some (ks.length - 1) := by
  have hfits := Search.bisect_fits h.pairwise n
  rw [lineAt?]
  generalize Search.bisect index.starts n = answer at hfits
  cases answer with
  | found k =>
    have hk := (List.getElem?_eq_some_iff.1 hfits).1
    have hlen : (index.starts.take (k + 1)).length = k + 1 := by
      rw [List.length_take]
      omega
    refine ⟨_, _, ?_, cutAt_of_getElem? h.pairwise hfits, ?_⟩
    · exact List.length_pos_iff.1 (by omega)
    · rw [hlen, Nat.add_sub_cancel]
  | absent next =>
    obtain ⟨hle, hbefore, hbehind⟩ := hfits
    have hlen : (index.starts.take next).length = next := by
      rw [List.length_take]
      omega
    -- the first line starts at 0, so the place is not before it
    have hpos : 0 < next := by
      rcases Nat.eq_zero_or_pos next with rfl | hpos
      · exact absurd (hbehind 0 h.zero_mem) (Nat.not_lt_zero n)
      · exact hpos
    refine ⟨index.starts.take next, index.starts.drop next, ?_,
      ⟨(List.take_append_drop ..).symm, fun a ha => Nat.le_of_lt (hbefore a ha), hbehind⟩, ?_⟩
    · exact List.length_pos_iff.1 (by omega)
    · simp only [hlen, sub?_of_le hpos]

/-- **The bisection finds the line.** -/
theorem lineAt?_eq (n : Nat) : index.lineAt? n = some (index.lineAt n) := by
  obtain ⟨ks, ls, -, hcut, hline⟩ := h.exists_cutAt n
  rw [hline, hcut.lineAt_eq]

theorem exists_lineStart? (n : Nat) :
    ∃ start, index.lineStart? (index.lineAt n) = some start ∧ start ≤ n := by
  obtain ⟨ks, ls, hne, hcut, -⟩ := h.exists_cutAt n
  rw [hcut.lineStart?_lineAt hne, List.getLast?_eq_some_getLast hne]
  exact ⟨_, rfl, hcut.le_of_mem _ (List.getLast_mem hne)⟩

theorem pos_of_lineStart?_succ (hk : index.lineStart? (k + 1) = some n) : 0 < n := by
  obtain ⟨hlt, rfl⟩ := List.getElem?_eq_some_iff.1 hk
  have hzero : index.starts[0] = 0 := by
    have hhead := h.head?
    rw [List.head?_eq_getElem?] at hhead
    exact (List.getElem?_eq_some_iff.1 hhead).2
  have hlt := List.pairwise_iff_getElem.1 h.pairwise 0 (k + 1) (by omega) hlt (by omega)
  omega

/-! ### Safety -/

/-- **All steps to a position are defined.** -/
theorem position?_eq (t : Text) (n : Nat) : index.position? t n = some (index.position t n) := by
  obtain ⟨start, hstart, hle⟩ := h.exists_lineStart? (min n t.size)
  have hline := h.lineAt?_eq (min n t.size)
  simp only [position?, hline, hstart, sub?_of_le hle, Option.bind_eq_bind, Option.bind_some,
    position, Option.getD_some, column]
  cases t.slice? start (min n t.size) with
  | some piece => rfl
  | none => rfl

/-- **All steps to the text of a line are defined.** -/
theorem lineText?_eq (t : Text) (k : Nat) : index.lineText? t k = some (index.lineText t k) := by
  rw [lineText?, lineText]
  cases index.lineStart? k with
  | none => rfl
  | some start =>
    cases hnext : index.lineStart? (k + 1) with
    | none => rfl
    | some next =>
      simp only [sub?_of_le (h.pos_of_lineStart?_succ hnext)]
      rfl

/-- A position is on one of the lines, at a column from 1 on, and not further to the right than
bytes allow; its column counts bytes unless the line starts and the offset lies between characters
of the text. -/
theorem exists_start_of_position (t : Text) (n : Nat) : ∃ start,
    index.lineStart? ((index.position t n).line - 1) = some start ∧ start ≤ min n t.size ∧
    (index.position t n).column ≤ min n t.size - start + 1 ∧
    ((index.position t n).column = min n t.size - start + 1 ∨
      t.IsBoundary start ∧ t.IsBoundary (min n t.size)) := by
  obtain ⟨start, hstart, hle⟩ := h.exists_lineStart? (min n t.size)
  refine ⟨start, hstart, hle, ?_⟩
  simp only [position, hstart, Option.getD_some, column]
  split
  · rename_i piece hpiece
    obtain ⟨-, hboundary⟩ := Text.exists_slice?_iff.1 ⟨piece, hpiece⟩
    obtain ⟨u, v, -, -, hsize⟩ := Text.slice?_eq_some_iff.1 hpiece
    have hlength := piece.length_le_size
    exact ⟨by omega, Or.inr hboundary⟩
  · exact ⟨Nat.le_refl _, Or.inl rfl⟩

end Ordered

theorem column_pos (t : Text) (start n : Nat) : 0 < column t start n := by
  unfold column
  split <;> exact Nat.succ_pos _

theorem trimReturn_prefix (line : Text) : trimReturn line <+: line := by
  rcases trimReturn_cases line with h | ⟨h, -⟩
  · exact ⟨_, h.symm⟩
  · exact ⟨[], by rw [List.append_nil, h]⟩

theorem exists_lineText_eq (h : index.lineStart? k = some start) (t : Text) :
    ∃ stop, index.lineText t k = trimReturn ((t.slice? start stop).getD []) := by
  rw [lineText, h]
  exact ⟨_, rfl⟩

/-- The text of a line is a part of the text that begins where the line starts, or empty. -/
theorem lineText_cases (index : LineIndex) (t : Text) (k : Nat) : index.lineText t k = [] ∨
    ∃ start u v, index.lineStart? k = some start ∧ t = u ++ index.lineText t k ++ v ∧
      u.size = start := by
  cases hstart : index.lineStart? k with
  | none => exact Or.inl (by rw [lineText, hstart])
  | some start =>
    obtain ⟨stop, hline⟩ := exists_lineText_eq hstart t
    rw [hline]
    cases hpiece : t.slice? start stop with
    | none => exact Or.inl rfl
    | some piece =>
      obtain ⟨u, v, ht, hu, -⟩ := Text.slice?_eq_some_iff.1 hpiece
      obtain ⟨r, hr⟩ := trimReturn_prefix piece
      refine Or.inr ⟨start, u, r ++ v, rfl, ?_, hu⟩
      rw [Option.getD_some, List.append_assoc, ← List.append_assoc _ r, hr,
        ← List.append_assoc, ht]

end LineIndex

/-- **An index is safe on any text.**  Let the index be that of the text `own`, and `other` any text.

All steps to the position of an offset in `other` are defined: the bisection finds a line that the
index has, and the offset, or the end of `other` if that comes first, is not before the start of
that line.  So the line of the position is one of the index, and its column is at least 1 and at
most one more than the bytes from the start of the line on; it counts characters only between two
boundaries of `other`.

All steps to the text of a line of `other` are defined, and the text is a part of `other` that
begins where the line starts, or empty. -/
theorem index_safe (own other : Text) :
    (∀ offset : Nat,
      (LineIndex.ofText own).position? other offset =
        some ((LineIndex.ofText own).position other offset) ∧
      1 ≤ ((LineIndex.ofText own).position other offset).line ∧
      ((LineIndex.ofText own).position other offset).line ≤ (LineIndex.ofText own).lineCount ∧
      ∃ start, (LineIndex.ofText own).lineStart?
          (((LineIndex.ofText own).position other offset).line - 1) = some start ∧
        start ≤ min offset other.size ∧
        1 ≤ ((LineIndex.ofText own).position other offset).column ∧
        ((LineIndex.ofText own).position other offset).column ≤
          min offset other.size - start + 1 ∧
        (((LineIndex.ofText own).position other offset).column = min offset other.size - start + 1 ∨
          other.IsBoundary start ∧ other.IsBoundary (min offset other.size))) ∧
    (∀ line : Nat,
      (LineIndex.ofText own).lineText? other line =
        some ((LineIndex.ofText own).lineText other line) ∧
      ((LineIndex.ofText own).lineText other line = [] ∨
        ∃ start u v, (LineIndex.ofText own).lineStart? line = some start ∧
          other = u ++ (LineIndex.ofText own).lineText other line ++ v ∧ u.size = start)) := by
  have h := LineIndex.ordered_ofText own
  refine ⟨fun offset => ⟨h.position?_eq other offset, ?_⟩,
    fun line => ⟨h.lineText?_eq other line, LineIndex.lineText_cases ..⟩⟩
  obtain ⟨start, hstart, hle, hcolumn, hboundary⟩ := h.exists_start_of_position other offset
  have hline := (List.getElem?_eq_some_iff.1 hstart).1
  refine ⟨Nat.succ_pos _, ?_, start, hstart, hle, ?_, hcolumn, hboundary⟩
  · exact Nat.le_of_pred_lt hline
  · exact LineIndex.column_pos ..

end TagQuery
