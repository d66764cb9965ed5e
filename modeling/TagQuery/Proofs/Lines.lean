import Mathlib.Data.List.TakeWhile
import TagQuery.Proofs.Rest
import TagQuery.Text.Lines

/-!
# The lines of a text

`Text.HasLine` cuts a text around one of its lines, and there is such a cut for every line
(`Text.exists_hasLine`) and for every place (`Text.exists_hasLine_append`).  A cut tells where the
line starts and what is on it, and the position of each place on it.

So the line `k` is the piece `k` of the text split at the newlines (`LineIndex.lineText_eq`).
-/

namespace TagQuery

variable {t u v above line below : Text} {k n : Nat}

/-! ### Cutting a text around a line -/

namespace Text

/-- The text cut around its line `k`, counted from 0: the lines above with their newlines, the line,
and what follows from the newline on that ends it. -/
structure HasLine (t : Text) (k : Nat) (above line below : Text) : Prop where
  eq_append : t = above ++ (line ++ below)
  count_above : above.count '\n' = k
  above_ends : ∀ c, above.getLast? = some c → c = '\n'
  newline_notMem : '\n' ∉ line
  below_begins : ∀ c, below.head? = some c → c = '\n'

theorem hasLine_zero (t : Text) :
    t.HasLine 0 [] (t.takeWhile (· ≠ '\n')) (t.dropWhile (· ≠ '\n')) where
  eq_append := List.takeWhile_append_dropWhile.symm
  count_above := List.count_nil
  above_ends _ h := by cases h
  newline_notMem h := by simpa using List.mem_takeWhile_imp h
  below_begins c h := by
    have hhead := List.head?_dropWhile_not (· ≠ '\n') t
    rw [h] at hhead
    simpa using hhead

theorem hasLine_behind (u v : Text) :
    (u ++ '\n' :: v).HasLine (u.count '\n' + 1) (u ++ ['\n']) (v.takeWhile (· ≠ '\n'))
      (v.dropWhile (· ≠ '\n')) where
  eq_append := by
    rw [List.append_assoc, List.singleton_append, List.takeWhile_append_dropWhile]
  count_above := by rw [List.count_append, List.count_singleton_self]
  above_ends c hc := by
    rw [List.getLast?_append, List.getLast?_singleton, Option.some_or, Option.some.injEq] at hc
    exact hc.symm
  newline_notMem := v.hasLine_zero.newline_notMem
  below_begins := v.hasLine_zero.below_begins

namespace HasLine

theorem cons (h : t.HasLine k above line below) (hu : '\n' ∉ u) :
    (u ++ '\n' :: t).HasLine (k + 1) (u ++ '\n' :: above) line below where
  eq_append := by rw [h.eq_append, List.append_assoc, List.cons_append]
  count_above := by
    rw [List.count_append, List.count_cons_self, h.count_above, List.count_eq_zero.2 hu,
      Nat.zero_add]
  above_ends c hc := by
    rw [List.getLast?_append, List.getLast?_cons, Option.some_or, Option.some.injEq] at hc
    cases hlast : above.getLast? with
    | none => rw [← hc, hlast, Option.getD_none]
    | some d => rw [← hc, hlast, Option.getD_some, h.above_ends d hlast]
  newline_notMem := h.newline_notMem
  below_begins := h.below_begins

/-- Only the first line has nothing above it; all others have a newline right before them. -/
theorem above_cases (h : t.HasLine k above line below) :
    (k = 0 ∧ above = []) ∨ ∃ a, above = a ++ ['\n'] ∧ k = a.count '\n' + 1 := by
  rcases List.eq_nil_or_concat above with rfl | ⟨a, c, rfl⟩
  · exact Or.inl ⟨h.count_above.symm, rfl⟩
  · rw [List.concat_eq_append] at h ⊢
    obtain rfl := h.above_ends c List.getLast?_concat
    refine Or.inr ⟨a, rfl, ?_⟩
    rw [← h.count_above, List.count_append, List.count_singleton_self]

theorem below_cases (h : t.HasLine k above line below) :
    below = [] ∨ ∃ b, below = '\n' :: b := by
  cases below with
  | nil => exact Or.inl rfl
  | cons c b => exact Or.inr ⟨b, by rw [h.below_begins c rfl]⟩

end HasLine

/-- **Every line can be cut out.** -/
theorem exists_hasLine (hk : k ≤ t.count '\n') :
    ∃ above line below, t.HasLine k above line below := by
  induction k generalizing t with
  | zero => exact ⟨_, _, _, t.hasLine_zero⟩
  | succ k ih =>
    -- the line is the one before in what is left behind the first newline
    have hmem : '\n' ∈ t := List.count_pos_iff.1 (Nat.lt_of_lt_of_le (Nat.succ_pos k) hk)
    obtain ⟨u, t, rfl, hu⟩ := List.eq_append_cons_of_mem hmem
    rw [List.count_append, List.count_cons_self, List.count_eq_zero.2 hu, Nat.zero_add] at hk
    obtain ⟨above, line, below, h⟩ := ih (Nat.le_of_succ_le_succ hk)
    exact ⟨_, _, _, h.cons hu⟩

/-- **Every place is on a line**, that many lines down as there are newlines before it. -/
theorem exists_hasLine_append (u v : Text) : ∃ above line₁ line₂ below : Text,
    u = above ++ line₁ ∧ v = line₂ ++ below ∧
      (u ++ v).HasLine (u.count '\n') above (line₁ ++ line₂) below := by
  -- the line of the place is the last one of `u` and the first one of `v`
  obtain ⟨above, line₁, below', hu⟩ := exists_hasLine (Nat.le_refl (u.count '\n'))
  have hv := v.hasLine_zero
  -- nothing is below the last line
  obtain rfl : below' = [] := by
    rcases hu.below_cases with rfl | ⟨b, rfl⟩
    · rfl
    · have hcount := congrArg (List.count '\n') hu.eq_append
      rw [List.count_append, hu.count_above, List.count_append, List.count_cons_self] at hcount
      omega
  have hu' := hu.eq_append
  rw [List.append_nil] at hu'
  have hv' := hv.eq_append
  rw [List.nil_append] at hv'
  refine ⟨above, line₁, _, _, hu', hv', ?_, hu.count_above, hu.above_ends, ?_, hv.below_begins⟩
  · rw [List.append_assoc, ← hv', ← List.append_assoc, ← hu']
  · exact fun h => (List.mem_append.1 h).elim hu.newline_notMem hv.newline_notMem

theorem exists_hasLine_append_cons (u v : Text) {c : Char} (hc : c ≠ '\n') :
    ∃ above line₁ line₂ below : Text, u = above ++ line₁ ∧ v = line₂ ++ below ∧
      (u ++ c :: v).HasLine (u.count '\n') above (line₁ ++ c :: line₂) below := by
  obtain ⟨above, line₁, line, below, hu, hv, h⟩ := exists_hasLine_append u (c :: v)
  cases line with
  | nil =>
    rw [List.nil_append] at hv
    exact absurd (h.below_begins c (by rw [← hv, List.head?_cons])) hc
  | cons d line₂ =>
    obtain ⟨rfl, hbehind⟩ := List.cons.inj hv
    exact ⟨above, line₁, line₂, below, hu, hbehind, h⟩

/-! ### Splitting at the newlines -/

theorem length_splitOn_newline (t : Text) : (t.splitOn '\n').length = t.count '\n' + 1 := by
  induction t with
  | nil => rfl
  | cons c t ih =>
    rw [List.splitOn_cons_eq_if_modifyHead, List.count_cons]
    split
    · rw [List.length_cons, ih]
    · rw [List.length_modifyHead, ih, Nat.add_zero]

theorem HasLine.head?_splitOn (h : t.HasLine k above line below) :
    ((line ++ below).splitOn '\n').head? = some line := by
  rcases h.below_cases with rfl | ⟨b, rfl⟩
  · rw [List.append_nil, List.splitOn_eq_singleton h.newline_notMem]
    rfl
  · rw [List.splitOn_append_cons_self_of_not_mem h.newline_notMem]
    rfl

theorem HasLine.getElem?_splitOn (h : t.HasLine k above line below) :
    (t.splitOn '\n')[k]? = some line := by
  have hhead := h.head?_splitOn
  rcases h.above_cases with ⟨rfl, rfl⟩ | ⟨a, rfl, rfl⟩
  · rwa [h.eq_append, List.nil_append, ← List.head?_eq_getElem?]
  · rw [h.eq_append, List.append_assoc, List.singleton_append, List.splitOn_append_cons_self,
      List.getElem?_append_right (by rw [length_splitOn_newline]), length_splitOn_newline,
      Nat.sub_self, ← List.head?_eq_getElem?, hhead]

end Text

/-! ### Where the lines start -/

namespace LineIndex

theorem lt_of_mem_startsFrom (h : k ∈ startsFrom n t) : n < k := by
  induction t generalizing n with
  | nil => cases h
  | cons c t ih =>
    rw [startsFrom] at h
    split at h
    · rcases List.mem_cons.1 h with rfl | h
      · exact Nat.lt_succ_self n
      · exact Nat.lt_of_succ_lt (ih h)
    · exact Nat.lt_of_le_of_lt (Nat.le_add_right ..) (ih h)

theorem le_of_mem_startsFrom (h : k ∈ startsFrom n t) : k ≤ n + t.size := by
  induction t generalizing n with
  | nil => cases h
  | cons c t ih =>
    rw [startsFrom] at h
    rw [Text.size_cons]
    split at h
    · rename_i hc
      have hsize : c.utf8Size = 1 := by rw [hc]; rfl
      rcases List.mem_cons.1 h with rfl | h
      · omega
      · have := ih h
        omega
    · have := ih h
      omega

theorem startsFrom_append (n : Nat) (u v : Text) :
    startsFrom n (u ++ v) = startsFrom n u ++ startsFrom (n + u.size) v := by
  induction u generalizing n with
  | nil => rfl
  | cons c u ih =>
    rw [List.cons_append, startsFrom, startsFrom, Text.size_cons]
    split
    · rename_i hc
      have hsize : c.utf8Size = 1 := by rw [hc]; rfl
      rw [ih, hsize, List.cons_append, Nat.add_assoc]
    · rw [ih, Nat.add_assoc]

theorem length_startsFrom (n : Nat) (t : Text) : (startsFrom n t).length = t.count '\n' := by
  induction t generalizing n with
  | nil => rfl
  | cons c t ih =>
    rw [startsFrom]
    split
    · rename_i hc
      rw [hc, List.length_cons, ih, List.count_cons_self]
    · rename_i hc
      rw [ih, List.count_cons_of_ne hc]

theorem startsFrom_eq_nil (h : '\n' ∉ t) (n : Nat) : startsFrom n t = [] := by
  rw [← List.length_eq_zero_iff, length_startsFrom, List.count_eq_zero.2 h]

/-- The starts of the lines are `ks` up to the offset `n`, and `ls` behind it. -/
structure CutAt (index : LineIndex) (n : Nat) (ks ls : List Nat) : Prop where
  starts_eq : index.starts = ks ++ ls
  le_of_mem : ∀ k ∈ ks, k ≤ n
  lt_of_mem : ∀ l ∈ ls, n < l

namespace CutAt

variable {index : LineIndex} {ks ls : List Nat}

theorem lineAt_eq (h : index.CutAt n ks ls) : index.lineAt n = ks.length - 1 := by
  have hbefore : ∀ k ∈ ks, decide (k ≤ n) = true := fun k hk => by simpa using h.le_of_mem k hk
  have hbehind : ls.takeWhile (· ≤ n) = [] := by
    cases ls with
    | nil => rfl
    | cons l ls =>
      have hl := h.lt_of_mem l List.mem_cons_self
      exact List.takeWhile_cons_of_neg (by simpa using hl)
  rw [lineAt, h.starts_eq, List.takeWhile_append_of_pos hbefore, hbehind, List.append_nil]

theorem lineStart?_lineAt (h : index.CutAt n ks ls) (hne : ks ≠ []) :
    index.lineStart? (index.lineAt n) = ks.getLast? := by
  have hlen := List.length_pos_iff.2 hne
  rw [h.lineAt_eq, lineStart?, h.starts_eq, List.getElem?_append_left (by omega),
    List.getLast?_eq_getElem?]

end CutAt

theorem lineAt_append (u v : Text) : (ofText (u ++ v)).lineAt u.size = u.count '\n' := by
  have hcut : (ofText (u ++ v)).CutAt u.size (0 :: startsFrom 0 u) (startsFrom u.size v) := by
    refine ⟨?_, fun k hk => ?_, fun l hl => lt_of_mem_startsFrom hl⟩
    · rw [ofText, startsFrom_append, Nat.zero_add, List.cons_append]
    · rcases List.mem_cons.1 hk with rfl | hk
      · exact Nat.zero_le _
      · simpa using le_of_mem_startsFrom hk
  rw [hcut.lineAt_eq, List.length_cons, length_startsFrom, Nat.add_sub_cancel]

end LineIndex

namespace Text.HasLine

open LineIndex

variable (h : t.HasLine k above line below)
include h

theorem starts_eq : ∃ ks : List Nat, ks.length = k ∧
    (ofText t).starts = ks ++ above.size :: startsFrom above.size (line ++ below) := by
  rcases h.above_cases with ⟨rfl, rfl⟩ | ⟨a, rfl, rfl⟩
  · exact ⟨[], rfl, by rw [h.eq_append]; rfl⟩
  · refine ⟨0 :: startsFrom 0 a, by rw [List.length_cons, length_startsFrom], ?_⟩
    have hnewline : Text.size ['\n'] = 1 := rfl
    rw [h.eq_append, ofText, startsFrom_append, startsFrom_append, Nat.zero_add, Nat.zero_add,
      List.append_assoc, List.cons_append, size_append, hnewline]
    rfl

theorem lineStart?_eq : (ofText t).lineStart? k = some above.size := by
  obtain ⟨ks, rfl, hks⟩ := h.starts_eq
  rw [lineStart?, hks, List.getElem?_append_right (Nat.le_refl _), Nat.sub_self]
  rfl

/-- The next line starts behind the newline that ends the line, if there is one. -/
theorem lineStart?_succ : (ofText t).lineStart? (k + 1) =
    below.head?.map fun _ => above.size + line.size + 1 := by
  obtain ⟨ks, rfl, hks⟩ := h.starts_eq
  rw [lineStart?, hks, List.getElem?_append_right (Nat.le_succ _), Nat.succ_eq_add_one,
    Nat.add_sub_cancel_left, List.getElem?_cons_succ, startsFrom_append,
    startsFrom_eq_nil h.newline_notMem]
  rcases h.below_cases with rfl | ⟨b, rfl⟩
  · rfl
  · rfl

theorem lineText_eq : (ofText t).lineText t k = trimReturn line := by
  have hslice : t.slice? above.size (above.size + line.size) = some line :=
    slice?_eq_some_iff.2 ⟨above, below, by rw [h.eq_append, List.append_assoc], rfl, rfl⟩
  have hsize : below = [] → t.size = above.size + line.size := by
    rintro rfl
    rw [h.eq_append, List.append_nil, size_append]
  simp only [lineText, h.lineStart?_eq, h.lineStart?_succ]
  rcases h.below_cases with hb | ⟨b, rfl⟩
  · rw [hb]
    simp only [List.head?_nil, Option.map_none, hsize hb, hslice, Option.getD_some]
  · simp only [List.head?_cons, Option.map_some, Nat.add_sub_cancel, hslice, Option.getD_some]

omit h

/-- **A place on a line has the number of the line, and a column for each character before it.** -/
theorem position_eq {line₁ line₂ : Text} (h : t.HasLine k above (line₁ ++ line₂) below) :
    (ofText t).position t (above.size + line₁.size) = ⟨k + 1, line₁.length + 1⟩ := by
  have hcut : t = above ++ line₁ ++ (line₂ ++ below) := by
    rw [h.eq_append, List.append_assoc, List.append_assoc]
  have hline : (ofText t).lineAt (above.size + line₁.size) = k := by
    have hnotMem : '\n' ∉ line₁ := fun hmem => h.newline_notMem (List.mem_append_left _ hmem)
    rw [hcut, ← size_append, lineAt_append, List.count_append, h.count_above,
      List.count_eq_zero.2 hnotMem, Nat.add_zero]
  have hmin : min (above.size + line₁.size) t.size = above.size + line₁.size := by
    rw [hcut, size_append, size_append]
    omega
  have hslice : t.slice? above.size (above.size + line₁.size) = some line₁ :=
    slice?_eq_some_iff.2 ⟨above, line₂ ++ below, hcut, rfl, rfl⟩
  simp only [position, hmin, hline, h.lineStart?_eq, Option.getD_some, column, hslice]

theorem position_above (h : t.HasLine k above line below) :
    (ofText t).position t above.size = ⟨k + 1, 1⟩ := by
  rw [← List.nil_append line] at h
  exact h.position_eq

end Text.HasLine

namespace LineIndex

theorem lineStart?_eq_none (h : t.count '\n' < k) : (ofText t).lineStart? k = none := by
  refine List.getElem?_eq_none ?_
  rw [ofText, List.length_cons, length_startsFrom]
  exact h

/-- **The line `k` of a text is its piece `k` between the newlines**, and empty beyond the last
one. -/
theorem lineText_eq (t : Text) (k : Nat) :
    (ofText t).lineText t k = trimReturn ((t.splitOn '\n').getD k []) := by
  rcases Nat.lt_or_ge (t.count '\n') k with hk | hk
  · have hpiece : (t.splitOn '\n')[k]? = none :=
      List.getElem?_eq_none (by rw [Text.length_splitOn_newline]; exact hk)
    rw [lineText, lineStart?_eq_none hk, List.getD_eq_getElem?_getD, hpiece]
    rfl
  · obtain ⟨above, line, below, h⟩ := Text.exists_hasLine hk
    rw [h.lineText_eq, List.getD_eq_getElem?_getD, h.getElem?_splitOn, Option.getD_some]

theorem mem_of_mem_trimReturn {c : Char} (h : c ∈ trimReturn line) : c ∈ line := by
  unfold trimReturn at h
  split at h
  · exact (List.dropLast_sublist line).mem h
  · exact h

/-- A character of a line stays where it is, unless it is the carriage return that ends it. -/
theorem getElem?_trimReturn {line₁ line₂ : Text} {c : Char} (h : ¬ (c = '\r' ∧ line₂ = [])) :
    (trimReturn (line₁ ++ c :: line₂))[line₁.length]? = some c := by
  have hkept : (line₁ ++ c :: line₂)[line₁.length]? = some c := by simp
  unfold trimReturn
  split
  · rename_i hlast
    have hne : line₂ ≠ [] := by
      rintro rfl
      rw [List.getLast?_append, List.getLast?_singleton, Option.some_or] at hlast
      exact h ⟨Option.some.inj hlast, rfl⟩
    rw [List.dropLast_append_cons, List.dropLast_cons_of_ne_nil hne]
    simp
  · exact hkept

theorem newline_notMem_lineText (t : Text) (k : Nat) : '\n' ∉ (ofText t).lineText t k := by
  intro h
  rcases Nat.lt_or_ge (t.count '\n') k with hk | hk
  · rw [lineText, lineStart?_eq_none hk] at h
    cases h
  · obtain ⟨above, line, below, hline⟩ := Text.exists_hasLine hk
    rw [hline.lineText_eq] at h
    exact hline.newline_notMem (mem_of_mem_trimReturn h)

end LineIndex

end TagQuery
