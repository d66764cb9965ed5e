import TagQuery.Proofs.Foreign

/-!
# Positions

The position of an offset between two characters is that of a reader who starts at line 1, column 1
and goes on by one column with each character, and to the next line with each newline
(`LineIndex.position_append`).  So it grows with the offset, and tells it.

An offset inside a character is on the line of that character, and its column counts bytes.
-/

namespace TagQuery

variable {t u v w : Text} {m n : Nat} {p q r : Position} {c : Char}

/-! ### Reading on -/

namespace Position

theorem lt_trans (hpq : p < q) (hqr : q < r) : p < r := by
  rw [lt_iff] at hpq hqr ⊢
  omega

theorem lt_irrefl (p : Position) : ¬ p < p := by
  rw [lt_iff]
  omega

/-- The position behind a character. -/
def next (p : Position) (c : Char) : Position :=
  if c = '\n' then ⟨p.line + 1, 1⟩ else ⟨p.line, p.column + 1⟩

theorem lt_next (p : Position) (c : Char) : p < p.next c := by
  rw [next, lt_iff]
  split
  · exact Or.inl (Nat.lt_succ_self _)
  · exact Or.inr ⟨rfl, Nat.lt_succ_self _⟩

theorem lt_foldl_next (p : Position) (h : w ≠ []) : p < w.foldl next p := by
  induction w generalizing p with
  | nil => exact absurd rfl h
  | cons c w ih =>
    rw [List.foldl_cons]
    by_cases hw : w = []
    · rw [hw]
      exact lt_next p c
    · exact lt_trans (lt_next p c) (ih _ hw)

end Position

namespace LineIndex

open Text

theorem position_next (ht : t = u ++ c :: v) : (ofText t).position t (u.size + c.utf8Size) =
    ((ofText t).position t u.size).next c := by
  by_cases hc : c = '\n'
  · -- behind a newline the next line begins
    subst hc
    obtain ⟨above, line₁, line₂, below, rfl, -, hline⟩ := exists_hasLine_append u ('\n' :: v)
    have hbehind := (hasLine_behind (above ++ line₁) v).position_above
    rw [← ht] at hline hbehind
    rw [size_append, size_append] at hbehind
    rw [size_append, hline.position_eq, Position.next, if_pos rfl]
    exact hbehind
  · -- any other character is on its line, which is cut before it and behind it
    obtain ⟨above, line₁, line₂, below, rfl, rfl, hline⟩ := exists_hasLine_append_cons u v hc
    rw [← ht] at hline
    have hbefore := hline.position_eq
    rw [List.append_cons line₁ c line₂] at hline
    have hbehind := hline.position_eq
    rw [size_append, size_cons, size_nil, Nat.add_zero, ← Nat.add_assoc] at hbehind
    rw [size_append, hbefore, hbehind, Position.next, if_neg hc, List.length_append,
      List.length_singleton]

/-- **The position of an offset is what reading up to it leads to.** -/
theorem position_append (u v : Text) : (ofText (u ++ v)).position (u ++ v) u.size =
    u.foldl Position.next ⟨1, 1⟩ := by
  induction u using List.reverseRecOn generalizing v with
  | nil => exact (hasLine_zero v).position_above
  | append_singleton u c ih =>
    have hnext := position_next (t := u ++ c :: v) rfl
    rw [List.append_assoc, List.singleton_append, size_append, size_cons, size_nil, Nat.add_zero,
      hnext, ih, List.foldl_append]
    rfl

theorem position_lt_position (hm : t.IsBoundary m) (hn : t.IsBoundary n) (h : m < n) :
    (ofText t).position t m < (ofText t).position t n := by
  obtain ⟨w, hw⟩ := exists_slice?_iff.2 ⟨Nat.le_of_lt h, hm, hn⟩
  obtain ⟨u, v, rfl, rfl, rfl⟩ := slice?_eq_some_iff.1 hw
  have hne : w ≠ [] := by
    rintro rfl
    exact Nat.lt_irrefl _ h
  have hbehind := position_append (u ++ w) v
  rw [size_append, List.foldl_append] at hbehind
  rw [hbehind, List.append_assoc, position_append]
  exact Position.lt_foldl_next _ hne

/-- **Positions are in the order of the offsets.** -/
theorem position_lt_iff (hm : t.IsBoundary m) (hn : t.IsBoundary n) :
    (ofText t).position t m < (ofText t).position t n ↔ m < n := by
  refine ⟨fun h => ?_, position_lt_position hm hn⟩
  rcases Nat.lt_trichotomy m n with hlt | rfl | hgt
  · exact hlt
  · exact absurd h (Position.lt_irrefl _)
  · exact absurd (Position.lt_trans h (position_lt_position hn hm hgt)) (Position.lt_irrefl _)

/-- **Different offsets have different positions.** -/
theorem position_inj (hm : t.IsBoundary m) (hn : t.IsBoundary n) :
    (ofText t).position t m = (ofText t).position t n ↔ m = n := by
  refine ⟨fun h => ?_, fun h => by rw [h]⟩
  have hmn : ¬ m < n := by
    rw [← position_lt_iff hm hn, h]
    exact Position.lt_irrefl _
  have hnm : ¬ n < m := by
    rw [← position_lt_iff hn hm, h]
    exact Position.lt_irrefl _
  omega

/-! ### Lines and columns -/

theorem position_eq (t : Text) (n : Nat) : (ofText t).position t n =
    ⟨(t.bytes.take (min n t.size)).count newline + 1,
      column t (t.lineStart (min n t.size)) (min n t.size)⟩ := by
  rw [← lineAt_eq_count]
  simp only [position, lineStart?_lineAt, Option.getD_some]

theorem isBoundary_lineStart (t : Text) (n : Nat) : t.IsBoundary (t.lineStart n) :=
  isBoundary_of_lineStart? (lineStart?_lineAt t n)

theorem lineStart_le (t : Text) (n : Nat) : t.lineStart n ≤ n := by
  have h := (List.rdropWhile_prefix (· != newline) (t.bytes.take n)).length_le
  rw [List.length_take] at h
  exact Nat.le_trans h (Nat.min_le_left ..)

theorem column_of_isBoundary (h : t.IsBoundary n) :
    ∃ piece, t.slice? (t.lineStart n) n = some piece ∧
      column t (t.lineStart n) n = piece.length + 1 := by
  obtain ⟨piece, hpiece⟩ :=
    exists_slice?_iff.2 ⟨lineStart_le t n, isBoundary_lineStart t n, h⟩
  exact ⟨piece, hpiece, by rw [column, hpiece]⟩

theorem column_of_not_isBoundary (h : ¬ t.IsBoundary n) (start : Nat) :
    column t start n = n - start + 1 := by
  rw [column]
  split
  · rename_i piece hpiece
    exact absurd (exists_slice?_iff.1 ⟨piece, hpiece⟩).2.2 h
  · rfl

/-- **The offset is found again** from its position: by the start of its line, and by the characters
of the line before its column. -/
theorem exists_offset_of_position (h : t.IsBoundary n) :
    ∃ start behind, (ofText t).lineStart? (((ofText t).position t n).line - 1) = some start ∧
      t.drop? start = some behind ∧
      n = start + Text.size (behind.take (((ofText t).position t n).column - 1)) := by
  obtain ⟨piece, hpiece, hcolumn⟩ := column_of_isBoundary h
  obtain ⟨u, v, ht, hu, hn⟩ := slice?_eq_some_iff.1 hpiece
  rw [position_eq, Nat.min_eq_left h.le_size, Nat.add_sub_cancel, ← lineAt_eq_count, hcolumn,
    Nat.add_sub_cancel]
  refine ⟨t.lineStart n, piece ++ v, lineStart?_lineAt t n, ?_, ?_⟩
  · exact drop?_eq_some_iff.2 ⟨u, by rw [ht, List.append_assoc], hu⟩
  · rw [List.take_left, hn]

end LineIndex

/-- **Positions are exact, in order, and tell the offset.**

All steps to a position are defined, and the bisection among them finds the line.

Let `o` be an offset, or the end of the text if that comes first.  The line of its position is one
more than the number of newlines among the first `o` bytes.  The column is one more than the number
of characters between the start of the line and `o`; if `o` is inside a character, it is one more
than the number of bytes between them.

For offsets between two characters and at the ends of the text, a position further on is later in
the text, different offsets have different positions, and the offset is the start of the line plus
the bytes of the characters before the column. -/
theorem position_exact (t : Text) :
    (∀ offset : Nat,
      (LineIndex.ofText t).position? t offset = some ((LineIndex.ofText t).position t offset) ∧
      ((LineIndex.ofText t).position t offset).line =
        1 + (t.bytes.take (min offset t.size)).count Text.newline ∧
      let o := min offset t.size
      (t.IsBoundary o → ∃ piece, t.slice? (t.lineStart o) o = some piece ∧
        ((LineIndex.ofText t).position t offset).column = 1 + piece.length) ∧
      (¬ t.IsBoundary o →
        ((LineIndex.ofText t).position t offset).column = 1 + (o - t.lineStart o))) ∧
    (∀ m n, t.IsBoundary m → t.IsBoundary n →
      ((LineIndex.ofText t).position t m < (LineIndex.ofText t).position t n ↔ m < n) ∧
      ((LineIndex.ofText t).position t m = (LineIndex.ofText t).position t n ↔ m = n)) ∧
    (∀ n, t.IsBoundary n → ∃ start behind,
      (LineIndex.ofText t).lineStart? (((LineIndex.ofText t).position t n).line - 1) =
        some start ∧
      t.drop? start = some behind ∧
      n = start +
        Text.size (behind.take (((LineIndex.ofText t).position t n).column - 1))) := by
  refine ⟨fun offset => ?_,
    fun m n hm hn => ⟨LineIndex.position_lt_iff hm hn, LineIndex.position_inj hm hn⟩,
    fun n h => LineIndex.exists_offset_of_position h⟩
  refine ⟨(LineIndex.ordered_ofText t).position?_eq t offset, ?_⟩
  rw [LineIndex.position_eq]
  refine ⟨Nat.add_comm .., fun h => ?_, fun h => ?_⟩
  · obtain ⟨piece, hpiece, hcolumn⟩ := LineIndex.column_of_isBoundary h
    exact ⟨piece, hpiece, hcolumn.trans (Nat.add_comm ..)⟩
  · exact (LineIndex.column_of_not_isBoundary h _).trans (Nat.add_comm ..)

/-- Before the bar of the second line stands a character of two bytes: the bar is in column 2, and
so is the second of the two bytes. -/
theorem position_exact_accent :
    let t : Text := ['a', '\n', 'é', '|']
    let index := LineIndex.ofText t
    t.IsBoundary 2 ∧ t.IsBoundary 4 ∧ ¬ t.IsBoundary 3 ∧ t.lineStart 4 = 2 ∧ t.lineStart 3 = 2 ∧
      (∃ piece, t.slice? 2 4 = some piece ∧ (index.position t 4).column = 1 + piece.length) ∧
      (index.position t 3).column = 1 + (3 - 2) ∧
      index.position t 2 < index.position t 4 ∧
      (∃ start behind, index.lineStart? ((index.position t 4).line - 1) = some start ∧
        t.drop? start = some behind ∧
        4 = start + Text.size (behind.take ((index.position t 4).column - 1))) := by
  intro t index
  have hbefore : t.IsBoundary 2 := by decide +kernel
  have hbar : t.IsBoundary 4 := by decide +kernel
  have hinside : ¬ t.IsBoundary 3 := by decide +kernel
  have hmin : min 4 t.size = 4 ∧ min 3 t.size = 3 := by decide +kernel
  have hstart : t.lineStart 4 = 2 ∧ t.lineStart 3 = 2 := by decide +kernel
  obtain ⟨hexact, horder, hfound⟩ := position_exact t
  obtain ⟨-, -, hcolumn, -⟩ := hexact 4
  obtain ⟨-, -, -, hcolumn'⟩ := hexact 3
  simp only [hmin.1, hstart.1] at hcolumn
  simp only [hmin.2, hstart.2] at hcolumn'
  exact ⟨hbefore, hbar, hinside, hstart.1, hstart.2, hcolumn hbar, hcolumn' hinside,
    (horder 2 4 hbefore hbar).1.2 (by decide), hfound 4 hbar⟩

end TagQuery
