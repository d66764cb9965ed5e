import Mathlib.Data.List.DropRight
import TagQuery.Proofs.Lines
import TagQuery.Text.Bytes

/-!
# Where the lines start

The lines of a text start at 0 and behind each byte that is a newline
(`LineIndex.startsFrom_eq_findIdxs`).  So the starts are in order, none of them lies inside a
character, and the line of an offset can be told from the bytes before the offset, also inside a
character: their newlines give its number (`LineIndex.lineAt_eq_count`), and the last of them the
place where it starts (`LineIndex.lineStart?_lineAt`).

The lines partition the text (`lines_partition`).
-/

namespace TagQuery

variable {t : Text} {k n : Nat}

/-- Where the line of the byte offset `n` starts: behind the last newline among the bytes before it,
or at 0 if there is none. -/
def Text.lineStart (t : Text) (n : Nat) : Nat :=
  ((t.bytes.take n).rdropWhile (· != Text.newline)).length

namespace LineIndex

open Text

/-! ### The starts among the bytes -/

theorem startsFrom_eq_findIdxs (n : Nat) (t : Text) :
    startsFrom n t = ((bytes t).findIdxs (· == newline) n).map (· + 1) := by
  induction t generalizing n with
  | nil => rfl
  | cons c t ih =>
    rw [startsFrom, bytes_cons, List.findIdxs_append, List.map_append, String.length_utf8EncodeChar]
    split
    · rename_i hc
      rw [hc, ih]
      rfl
    · rename_i hc
      -- no byte of another character is that of a newline
      have hnone : (String.utf8EncodeChar c).findIdxs (· == newline) n = [] := by
        refine List.findIdxs_eq_nil_iff.2 fun b hb => ?_
        rw [beq_eq_false_iff_ne]
        rintro rfl
        exact hc (newline_mem_utf8EncodeChar_iff.1 hb)
      rw [hnone, ih]
      rfl

theorem cutAt_bytes (t : Text) (n : Nat) : (ofText t).CutAt n
    (0 :: ((t.bytes.take n).findIdxs (· == newline)).map (· + 1))
    (((t.bytes.drop n).findIdxs (· == newline) (t.bytes.take n).length).map (· + 1)) where
  starts_eq := by
    rw [ofText, startsFrom_eq_findIdxs, List.cons_append, ← List.map_append]
    conv_lhs => rw [← List.take_append_drop n (bytes t), List.findIdxs_append, Nat.zero_add]
  le_of_mem k hk := by
    rcases List.mem_cons.1 hk with rfl | hk
    · exact Nat.zero_le n
    · obtain ⟨i, hi, rfl⟩ := List.mem_map.1 hk
      have hlt := List.lt_add_of_mem_findIdxs _ hi
      rw [List.length_take] at hlt
      omega
  lt_of_mem l hl := by
    obtain ⟨i, hi, rfl⟩ := List.mem_map.1 hl
    have hge := List.ge_of_mem_findIdxs _ hi
    have hlt := List.lt_add_of_mem_findIdxs _ hi
    rw [List.length_take] at hge hlt
    rw [List.length_drop] at hlt
    omega

/-- **The line of an offset has as many lines above it as there are newlines among the bytes before
the offset.** -/
theorem lineAt_eq_count (t : Text) (n : Nat) :
    (ofText t).lineAt n = (t.bytes.take n).count newline := by
  rw [(cutAt_bytes t n).lineAt_eq, List.length_cons, List.length_map, List.length_findIdxs,
    Nat.add_sub_cancel]
  rfl

theorem getLast?_starts (bs : List UInt8) :
    (0 :: (bs.findIdxs (· == newline)).map (· + 1)).getLast? =
      some (bs.rdropWhile (· != newline)).length := by
  induction bs using List.reverseRecOn with
  | nil => rfl
  | append_singleton bs b ih =>
    rw [List.findIdxs_append, List.map_append, ← List.cons_append, List.getLast?_append,
      List.rdropWhile_concat, Nat.zero_add]
    by_cases hb : b = newline
    · simp [hb]
    · simp [hb, ih]

/-- **The line of an offset starts behind the last newline among the bytes before the offset.** -/
theorem lineStart?_lineAt (t : Text) (n : Nat) :
    (ofText t).lineStart? ((ofText t).lineAt n) = some (t.lineStart n) := by
  rw [(cutAt_bytes t n).lineStart?_lineAt (List.cons_ne_nil _ _), getLast?_starts]
  rfl

/-! ### The starts in order -/

/-- The first line starts at 0, and every other line behind the one above it. -/
structure Ordered (index : LineIndex) : Prop where
  head? : index.starts.head? = some 0
  pairwise : index.starts.Pairwise (· < ·)

theorem ordered_ofText (t : Text) : (ofText t).Ordered := by
  refine ⟨rfl, ?_⟩
  -- a list of indices increases, and each start is the next offset after one
  rw [ofText, startsFrom_eq_findIdxs, List.pairwise_cons, List.pairwise_map]
  refine ⟨fun k hk => ?_, ?_⟩
  · obtain ⟨i, -, rfl⟩ := List.mem_map.1 hk
    exact Nat.succ_pos i
  · exact List.pairwise_findIdxs.imp fun h => Nat.succ_lt_succ h

theorem lineCount_ofText (t : Text) : (ofText t).lineCount = t.count '\n' + 1 := by
  rw [lineCount, ofText, List.length_cons, length_startsFrom]

theorem isBoundary_of_lineStart? (h : (ofText t).lineStart? k = some n) : t.IsBoundary n := by
  have hk : k ≤ t.count '\n' := by
    by_contra hk
    rw [lineStart?_eq_none (Nat.not_le.1 hk)] at h
    cases h
  obtain ⟨above, line, below, hline⟩ := exists_hasLine hk
  rw [hline.lineStart?_eq, Option.some.injEq] at h
  exact isBoundary_iff.2 ⟨above, line ++ below, hline.eq_append, h⟩

theorem le_size_of_mem_starts (h : n ∈ (ofText t).starts) : n ≤ t.size := by
  obtain ⟨k, hk⟩ := List.mem_iff_getElem?.1 h
  exact (isBoundary_of_lineStart? hk).le_size

/-! ### The lines as pieces of the text -/

theorem trimReturn_cases (line : Text) : line = trimReturn line ++ ['\r'] ∨
    trimReturn line = line ∧ line.getLast? ≠ some '\r' := by
  unfold trimReturn
  split
  · rename_i h
    exact Or.inl (List.dropLast_append_getLast? '\r' h).symm
  · rename_i h
    exact Or.inr ⟨rfl, h⟩

theorem lineText_eq_nil (h : t.count '\n' < k) (u : Text) : (ofText t).lineText u k = [] := by
  rw [lineText, lineStart?_eq_none h]

end LineIndex

namespace Text.HasLine

open LineIndex

variable {above line below : Text}

/-- A line ends one byte before the next one starts; behind the last line, the next one would start
one byte behind the text. -/
theorem lineStart?_succ_getD (h : t.HasLine k above line below) :
    ((ofText t).lineStart? (k + 1)).getD (t.size + 1) = above.size + line.size + 1 := by
  rw [h.lineStart?_succ]
  rcases h.below_cases with rfl | ⟨b, rfl⟩
  · have ht := h.eq_append
    rw [List.append_nil] at ht
    rw [List.head?_nil, Option.map_none, Option.getD_none, ht, size_append]
  · rw [List.head?_cons, Option.map_some, Option.getD_some]

end Text.HasLine

/-- **The lines partition the text.**  There is one line more than newlines, the first one starts at
0, each one behind the one above it, and none behind the end of the text.

The line `k` is the piece `k` of the text between the newlines, without the carriage return that may
end the piece.  It starts where the index says, and the next line starts behind the piece and its
newline; there is no line behind the last one, which would start one byte behind the text.  The
pieces joined by newlines are the text.  Lines that do not exist have no start, and are empty. -/
theorem lines_partition (t : Text) :
    (LineIndex.ofText t).lineCount = t.count '\n' + 1 ∧
    (LineIndex.ofText t).starts.head? = some 0 ∧
    (LineIndex.ofText t).starts.Pairwise (· < ·) ∧
    (∀ n ∈ (LineIndex.ofText t).starts, n ≤ t.size) ∧
    (∀ k < (LineIndex.ofText t).lineCount, ∃ start piece,
      (LineIndex.ofText t).lineStart? k = some start ∧
      (t.splitOn '\n')[k]? = some piece ∧ '\n' ∉ piece ∧
      (piece = (LineIndex.ofText t).lineText t k ++ ['\r'] ∨
        (LineIndex.ofText t).lineText t k = piece ∧ piece.getLast? ≠ some '\r') ∧
      ((LineIndex.ofText t).lineStart? (k + 1)).getD (t.size + 1) = start + Text.size piece + 1) ∧
    ['\n'].intercalate (t.splitOn '\n') = t ∧
    (t.splitOn '\n').length = (LineIndex.ofText t).lineCount ∧
    (∀ k ≥ (LineIndex.ofText t).lineCount,
      (LineIndex.ofText t).lineStart? k = none ∧ (LineIndex.ofText t).lineText t k = []) := by
  have hcount := LineIndex.lineCount_ofText t
  have hordered := LineIndex.ordered_ofText t
  refine ⟨hcount, hordered.head?, hordered.pairwise,
    fun n hn => LineIndex.le_size_of_mem_starts hn, fun k hk => ?_,
    List.intercalate_splitOn '\n', ?_, fun k hk => ?_⟩
  · rw [hcount] at hk
    obtain ⟨above, line, below, h⟩ := Text.exists_hasLine (Nat.le_of_lt_succ hk)
    refine ⟨above.size, line, h.lineStart?_eq, h.getElem?_splitOn, h.newline_notMem, ?_,
      h.lineStart?_succ_getD⟩
    rw [h.lineText_eq]
    exact LineIndex.trimReturn_cases line
  · rw [hcount, Text.length_splitOn_newline]
  · rw [hcount] at hk
    exact ⟨LineIndex.lineStart?_eq_none hk, LineIndex.lineText_eq_nil hk t⟩

/-- A text of three lines: the second one holds a character of two bytes and a carriage return, and
the third one is empty. -/
theorem lines_partition_accent :
    let t := ['a', '\n', 'é', '\r', '\n']
    let index := LineIndex.ofText t
    6 ∈ index.starts ∧ 6 ≤ Text.size t ∧
      1 < index.lineCount ∧ index.lineStart? 1 = some 2 ∧
      (['é', '\r'] = index.lineText t 1 ++ ['\r'] ∨
        index.lineText t 1 = ['é', '\r'] ∧ ['é', '\r'].getLast? ≠ some '\r') ∧
      (index.lineStart? 2).getD (Text.size t + 1) = 2 + Text.size ['é', '\r'] + 1 ∧
      3 ≥ index.lineCount ∧ index.lineStart? 3 = none := by
  intro t index
  have hstart : index.lineStart? 1 = some 2 := by decide +kernel
  have hpiece : (t.splitOn '\n')[1]? = some ['é', '\r'] := by decide +kernel
  obtain ⟨-, -, -, hle, hlines, -, -, hnone⟩ := lines_partition t
  obtain ⟨start, piece, hstart', hpiece', -, htrim, hnext⟩ := hlines 1 (by decide +kernel)
  obtain rfl : 2 = start := Option.some.inj (hstart.symm.trans hstart')
  obtain rfl : ['é', '\r'] = piece := Option.some.inj (hpiece.symm.trans hpiece')
  exact ⟨by decide +kernel, hle 6 (by decide +kernel), by decide +kernel, hstart, htrim, hnext,
    by decide +kernel, (hnone 3 (by decide +kernel)).1⟩

end TagQuery
