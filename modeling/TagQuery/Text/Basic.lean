/-!
# Texts and byte offsets

A text is the list of its characters.  Offsets into a text count the bytes of its UTF-8 form, so
an offset may fall inside a character or past the end; the cutting functions answer `none` there.

* `Text.size` is the length in bytes;
* `Text.drop?`, `Text.take?` and `Text.slice?` cut a text at byte offsets.  Their meaning is given
  by `Text.drop?_eq_some_iff`, `Text.take?_eq_some_iff` and `Text.slice?_eq_some_iff`: a cut
  exists exactly where the text is a concatenation of pieces of the sizes asked for;
* `Text.foldCase` forgets the case of ASCII letters and nothing else.
-/

namespace TagQuery

/-- A text, as the list of its characters. -/
abbrev Text := List Char

namespace Text

/-- Number of bytes of the UTF-8 form. -/
def size : Text → Nat
  | [] => 0
  | c :: t => c.utf8Size + size t

@[simp] theorem size_nil : size [] = 0 := rfl

@[simp] theorem size_cons (c : Char) (t : Text) : size (c :: t) = c.utf8Size + size t := rfl

@[simp] theorem size_append (t u : Text) : size (t ++ u) = size t + size u := by
  induction t with
  | nil => simp
  | cons c t ih => simp only [List.cons_append, size_cons, ih]; omega

@[simp] theorem size_eq_zero_iff {t : Text} : size t = 0 ↔ t = [] := by
  cases t with
  | nil => simp
  | cons c t => have := c.utf8Size_pos; simp; omega

theorem length_le_size (t : Text) : t.length ≤ size t := by
  induction t with
  | nil => simp
  | cons c t ih => have := c.utf8Size_pos; simp; omega

/-- The bytes of a string are those of its characters. -/
theorem size_toList (s : String) : size s.toList = s.utf8ByteSize := by
  have h (t : Text) : size t = (String.ofList t).utf8ByteSize := by
    induction t with
    | nil => simp
    | cons c t ih => simp [String.ofList_cons, ih]
  rw [h, String.ofList_toList]

/-- A number of spaces. -/
def spaces (n : Nat) : Text := List.replicate n ' '

@[simp] theorem length_spaces (n : Nat) : (spaces n).length = n := List.length_replicate

@[simp] theorem size_spaces (n : Nat) : size (spaces n) = n := by
  induction n with
  | zero => rfl
  | succ n ih => rw [spaces, List.replicate_succ, size_cons, ← spaces, ih, Nat.add_comm]; rfl

/-! ### Cutting at byte offsets -/

/-- `drop? n t` is `t` without its first `n` bytes, if `n` is the end of a character. -/
def drop? : Nat → Text → Option Text
  | 0, t => some t
  | _ + 1, [] => none
  | n + 1, c :: t => if c.utf8Size ≤ n + 1 then drop? (n + 1 - c.utf8Size) t else none

/-- `take? n t` is the text of the first `n` bytes of `t`, if `n` is the end of a character. -/
def take? : Nat → Text → Option Text
  | 0, _ => some []
  | _ + 1, [] => none
  | n + 1, c :: t =>
    if c.utf8Size ≤ n + 1 then (take? (n + 1 - c.utf8Size) t).map (c :: ·) else none

/-- `slice? t start stop` is the part of `t` between two byte offsets, if they are in order and
both are ends of characters. -/
def slice? (t : Text) (start stop : Nat) : Option Text :=
  if start ≤ stop then (drop? start t).bind (take? (stop - start)) else none

/-- The offset `n` falls between two characters of `t` or at one of its ends. -/
def IsBoundary (t : Text) (n : Nat) : Prop := (drop? n t).isSome

instance (t : Text) (n : Nat) : Decidable (t.IsBoundary n) :=
  inferInstanceAs (Decidable ((drop? n t).isSome = true))

@[simp] theorem drop?_zero (t : Text) : drop? 0 t = some t := by cases t <;> rfl

@[simp] theorem take?_zero (t : Text) : take? 0 t = some [] := by cases t <;> rfl

theorem drop?_append_add (u t : Text) (n : Nat) : (u ++ t).drop? (n + u.size) = t.drop? n := by
  induction u with
  | nil => rfl
  | cons c u ih =>
    have hc := c.utf8Size_pos
    obtain ⟨k, hk⟩ : ∃ k, n + size (c :: u) = k + 1 :=
      Nat.exists_eq_succ_of_ne_zero (by rw [size_cons]; omega)
    rw [size_cons] at hk
    have hrest : k + 1 - c.utf8Size = n + size u := by omega
    rw [size_cons, hk, List.cons_append, drop?, if_pos (by omega), hrest, ih]

theorem drop?_size (u v : Text) : (u ++ v).drop? u.size = some v := by
  rw [← Nat.zero_add u.size, drop?_append_add, drop?_zero]

theorem take?_size (u v : Text) : (u ++ v).take? u.size = some u := by
  induction u with
  | nil => exact take?_zero v
  | cons c u ih =>
    have hc := c.utf8Size_pos
    obtain ⟨k, hk⟩ : ∃ k, c.utf8Size + size u = k + 1 :=
      Nat.exists_eq_succ_of_ne_zero (by omega)
    rw [size_cons, hk, List.cons_append, take?, if_pos (by omega), ← hk, Nat.add_sub_cancel_left,
      ih, Option.map_some]

theorem exists_of_drop?_eq_some {n : Nat} {t v : Text} (h : drop? n t = some v) :
    ∃ u, t = u ++ v ∧ size u = n := by
  fun_induction drop? n t with
  | case1 t =>
    obtain rfl := Option.some.inj h
    exact ⟨[], rfl, rfl⟩
  | case2 n => cases h
  | case3 n c t hc ih =>
    obtain ⟨u, rfl, hu⟩ := ih h
    exact ⟨c :: u, rfl, by rw [size_cons]; omega⟩
  | case4 n c t hc => cases h

theorem exists_of_take?_eq_some {n : Nat} {t u : Text} (h : take? n t = some u) :
    ∃ v, t = u ++ v ∧ size u = n := by
  fun_induction take? n t generalizing u with
  | case1 t =>
    obtain rfl := Option.some.inj h
    exact ⟨t, rfl, rfl⟩
  | case2 n => cases h
  | case3 n c t hc ih =>
    obtain ⟨w, hw, rfl⟩ := Option.map_eq_some_iff.1 h
    obtain ⟨v, rfl, hn⟩ := ih hw
    exact ⟨v, rfl, by rw [size_cons]; omega⟩
  | case4 n c t hc => cases h

/-- A text can be cut after `n` bytes exactly where it is a concatenation. -/
theorem drop?_eq_some_iff {n : Nat} {t v : Text} :
    drop? n t = some v ↔ ∃ u, t = u ++ v ∧ size u = n := by
  refine ⟨exists_of_drop?_eq_some, ?_⟩
  rintro ⟨u, rfl, rfl⟩
  exact drop?_size u v

/-- The first `n` bytes form a text exactly where the text is a concatenation. -/
theorem take?_eq_some_iff {n : Nat} {t u : Text} :
    take? n t = some u ↔ ∃ v, t = u ++ v ∧ size u = n := by
  refine ⟨exists_of_take?_eq_some, ?_⟩
  rintro ⟨v, rfl, rfl⟩
  exact take?_size u v

/-- A slice exists exactly where the text is a concatenation of three pieces. -/
theorem slice?_eq_some_iff {t m : Text} {start stop : Nat} :
    slice? t start stop = some m ↔
      ∃ u v, t = u ++ m ++ v ∧ size u = start ∧ start + size m = stop := by
  unfold slice?
  constructor
  · intro h
    split at h
    · obtain ⟨w, hw, hm⟩ := Option.bind_eq_some_iff.1 h
      obtain ⟨u, rfl, rfl⟩ := drop?_eq_some_iff.1 hw
      obtain ⟨v, rfl, hv⟩ := take?_eq_some_iff.1 hm
      exact ⟨u, v, by simp, rfl, by omega⟩
    · simp at h
  · rintro ⟨u, v, rfl, rfl, rfl⟩
    rw [if_pos (by omega), List.append_assoc, drop?_eq_some_iff.2 ⟨u, rfl, rfl⟩]
    exact take?_eq_some_iff.2 ⟨v, rfl, by omega⟩

theorem le_size_of_slice? {t m : Text} {start stop : Nat} (h : slice? t start stop = some m) :
    stop ≤ size t := by
  obtain ⟨u, v, rfl, rfl, rfl⟩ := slice?_eq_some_iff.1 h
  simp only [size_append]
  omega

/-- A boundary cuts the text in two. -/
theorem isBoundary_iff {t : Text} {n : Nat} :
    t.IsBoundary n ↔ ∃ u v, t = u ++ v ∧ size u = n := by
  simp only [IsBoundary, Option.isSome_iff_exists, drop?_eq_some_iff]
  exact ⟨fun ⟨v, u, h⟩ => ⟨u, v, h⟩, fun ⟨u, v, h⟩ => ⟨v, u, h⟩⟩

theorem IsBoundary.le_size {t : Text} {n : Nat} (h : t.IsBoundary n) : n ≤ size t := by
  obtain ⟨u, v, rfl, rfl⟩ := isBoundary_iff.1 h
  simp

/-- There is a slice between two boundaries in order, and nowhere else. -/
theorem exists_slice?_iff {t : Text} {start stop : Nat} :
    (∃ m, slice? t start stop = some m) ↔
      start ≤ stop ∧ t.IsBoundary start ∧ t.IsBoundary stop := by
  constructor
  · rintro ⟨m, hm⟩
    obtain ⟨u, v, rfl, rfl, rfl⟩ := slice?_eq_some_iff.1 hm
    exact ⟨Nat.le_add_right .., isBoundary_iff.2 ⟨u, m ++ v, List.append_assoc .., rfl⟩,
      isBoundary_iff.2 ⟨u ++ m, v, rfl, size_append u m⟩⟩
  · rintro ⟨hle, hstart, hstop⟩
    obtain ⟨u, v, rfl, rfl⟩ := isBoundary_iff.1 hstart
    obtain ⟨u', v', heq, rfl⟩ := isBoundary_iff.1 hstop
    rcases List.append_eq_append_iff.1 heq with ⟨m, rfl, rfl⟩ | ⟨m, rfl, rfl⟩
    · exact ⟨m, slice?_eq_some_iff.2 ⟨u, v', (List.append_assoc ..).symm, rfl,
        (size_append u m).symm⟩⟩
    · -- the pieces are in order, so nothing is left over between them
      rw [size_append] at hle
      obtain rfl : m = [] := size_eq_zero_iff.1 (by omega)
      exact ⟨[], slice?_eq_some_iff.2 ⟨u', v, by simp, by simp, by simp⟩⟩

/-! ### Case -/

/-- The text with `A` to `Z` in lower case and every other character kept. -/
def foldCase (t : Text) : Text := t.map Char.toLower

@[simp] theorem foldCase_nil : foldCase [] = [] := rfl

@[simp] theorem foldCase_cons (c : Char) (t : Text) :
    foldCase (c :: t) = c.toLower :: foldCase t := rfl

@[simp] theorem foldCase_append (t u : Text) : foldCase (t ++ u) = foldCase t ++ foldCase u :=
  List.map_append

/-- Folding a letter keeps its number of bytes. -/
@[simp] theorem utf8Size_toLower (c : Char) : c.toLower.utf8Size = c.utf8Size := by
  unfold Char.toLower
  split
  · rename_i h
    obtain ⟨h₁, h₂⟩ := h
    have h₁ : 65 ≤ c.val.toNat := h₁
    have h₂ : c.val.toNat ≤ 90 := h₂
    have hs : (c.val + ('a'.val - 'A'.val)).toNat = c.val.toNat + 32 := by
      have : ('a'.val - 'A'.val).toNat = 32 := by decide
      rw [UInt32.toNat_add, this]; omega
    simp only [Char.utf8Size]
    rw [if_pos, if_pos]
    · show c.val.toNat ≤ 127; omega
    · show (c.val + ('a'.val - 'A'.val)).toNat ≤ 127; omega
  · rfl

@[simp] theorem size_foldCase (t : Text) : size (foldCase t) = size t := by
  induction t with
  | nil => rfl
  | cons c t ih => simp [ih]

end Text

end TagQuery
