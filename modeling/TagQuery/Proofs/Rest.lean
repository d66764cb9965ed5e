import TagQuery.Text.Basic

/-!
# What stands at an offset

`Text.rest t n` is the text from the byte offset `n` on.  Past the end and inside a character
nothing stands, and there the rest is empty: for reading a non-empty piece of text all three are
the same (`Text.slice?_eq_some_iff_rest`).

The second half is about spaces: every text is some spaces and a text that does not begin with
one, in one way only.
-/

namespace TagQuery

namespace Text

variable {t u v w m : Text} {n k j : Nat}

/-- The text from the offset `n` on; past the end and inside a character it is empty. -/
def rest (t : Text) (n : Nat) : Text := (t.drop? n).getD []

@[simp] theorem rest_zero (t : Text) : t.rest 0 = t := by simp [rest]

theorem rest_append (u v : Text) : (u ++ v).rest (size u) = v := by
  rw [rest, drop?_eq_some_iff.2 ⟨u, rfl, rfl⟩, Option.getD_some]

theorem eq_append_of_rest (h : t.rest n = v) (hv : v ≠ []) : ∃ u, t = u ++ v ∧ size u = n := by
  rw [rest] at h
  cases hd : t.drop? n with
  | none =>
    rw [hd, Option.getD_none] at h
    exact absurd h.symm hv
  | some v' =>
    rw [hd, Option.getD_some] at h
    subst h
    exact drop?_eq_some_iff.1 hd

theorem rest_add (h : t.rest n = w ++ v) : t.rest (n + size w) = v := by
  by_cases hw : w = []
  · simpa [hw] using h
  · obtain ⟨u, rfl, rfl⟩ := eq_append_of_rest h (by simp [hw])
    rw [← List.append_assoc, ← size_append, rest_append]

theorem add_size_le (h : t.rest n = w ++ v) (hw : w ≠ []) : n + size w ≤ size t := by
  obtain ⟨u, rfl, rfl⟩ := eq_append_of_rest h (by simp [hw])
  simp only [size_append]
  omega

theorem size_pos (h : t ≠ []) : 0 < size t := by
  rcases Nat.eq_zero_or_pos (size t) with h₀ | h₀
  · exact absurd (size_eq_zero_iff.1 h₀) h
  · exact h₀

/-- A non-empty slice is what stands at its start. -/
theorem slice?_eq_some_iff_rest (hk : 0 < k) :
    t.slice? n (n + k) = some m ↔ ∃ v, t.rest n = m ++ v ∧ size m = k := by
  rw [slice?_eq_some_iff]
  constructor
  · rintro ⟨u, v, rfl, rfl, hm⟩
    exact ⟨v, by rw [List.append_assoc, rest_append], by omega⟩
  · rintro ⟨v, hv, rfl⟩
    have hm : m ≠ [] := by
      rintro rfl
      simp at hk
    obtain ⟨u, rfl, rfl⟩ := eq_append_of_rest hv (by simp [hm])
    exact ⟨u, v, by simp, rfl, rfl⟩

theorem append_inj_size {u' v' : Text} (h : u ++ v = u' ++ v') (hs : size u = size u') :
    u = u' ∧ v = v' := by
  have hv : v = v' := by
    rw [← rest_append u v, ← rest_append u' v', h, hs]
  subst hv
  exact ⟨List.append_cancel_right h, rfl⟩

/-! ### Spaces -/

@[simp] theorem spaces_zero : spaces 0 = [] := rfl

theorem spaces_succ (n : Nat) : spaces (n + 1) = ' ' :: spaces n := rfl

/-- Every text is some spaces and a text that does not begin with one. -/
theorem exists_eq_spaces_append (t : Text) : ∃ k v, t = spaces k ++ v ∧ v.head? ≠ some ' ' := by
  induction t with
  | nil => exact ⟨0, [], rfl, by simp⟩
  | cons c t ih =>
    by_cases hc : c = ' '
    · obtain ⟨k, v, rfl, hv⟩ := ih
      exact ⟨k + 1, v, by rw [hc, spaces_succ, List.cons_append], hv⟩
    · exact ⟨0, c :: t, rfl, by simpa using hc⟩

theorem slice?_of_spaces {i : Nat} (h : t.rest n = spaces k ++ v) (hi : n ≤ i) (hik : i < n + k) :
    t.slice? i (i + 1) = some [' '] := by
  have hsplit : spaces k = spaces (i - n) ++ ' ' :: spaces (k - (i - n) - 1) := by
    rw [← spaces_succ, spaces, spaces, spaces, List.replicate_append_replicate]
    congr 1
    omega
  rw [hsplit, List.append_assoc] at h
  have hrest := rest_add h
  rw [size_spaces, Nat.add_sub_cancel' hi] at hrest
  exact (slice?_eq_some_iff_rest (by decide)).2 ⟨_, hrest, rfl⟩

/-- The spaces at the start of a text can be counted in one way only. -/
theorem spaces_append_inj (hu : u.head? ≠ some ' ') (hv : v.head? ≠ some ' ')
    (h : spaces j ++ u = spaces k ++ v) : j = k ∧ u = v := by
  induction j generalizing k with
  | zero =>
    cases k with
    | zero => exact ⟨rfl, h⟩
    | succ k =>
      rw [spaces_zero, List.nil_append, spaces_succ, List.cons_append] at h
      exact absurd (by rw [h]; rfl) hu
  | succ j ih =>
    cases k with
    | zero =>
      rw [spaces_zero, List.nil_append, spaces_succ, List.cons_append] at h
      exact absurd (by rw [← h]; rfl) hv
    | succ k =>
      simp only [spaces_succ, List.cons_append, List.cons.injEq, true_and] at h
      obtain ⟨rfl, rfl⟩ := ih h
      exact ⟨rfl, rfl⟩

end Text

end TagQuery
