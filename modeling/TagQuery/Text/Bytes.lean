import TagQuery.Text.Basic

/-!
# The bytes of a text

`Text.bytes` is the UTF-8 form of a text, whose bytes the offsets count (`Text.length_bytes`).  An
ASCII character is its own byte, and no byte of another character is ASCII
(`Text.le_toNat_of_mem_utf8EncodeChar`).  So where the byte of a newline is, there is a newline
(`Text.newline_mem_utf8EncodeChar_iff`).

A byte tells whether a character begins with it (`Text.isUTF8FirstByte_getElem_bytes_iff`), and the
bytes of a character tell where it ends.  So where the bytes of a text are, there is the text
(`Text.slice?_eq_some_iff_bytes`): they cannot be found across characters.
-/

namespace TagQuery

namespace Text

/-- The UTF-8 form. -/
def bytes (t : Text) : List UInt8 := t.flatMap String.utf8EncodeChar

@[simp] theorem bytes_nil : bytes [] = [] := rfl

@[simp] theorem bytes_cons (c : Char) (t : Text) :
    bytes (c :: t) = String.utf8EncodeChar c ++ bytes t := List.flatMap_cons

@[simp] theorem bytes_append (t u : Text) : bytes (t ++ u) = bytes t ++ bytes u :=
  List.flatMap_append

@[simp] theorem length_bytes (t : Text) : (bytes t).length = size t := by
  induction t with
  | nil => rfl
  | cons c t ih => rw [bytes_cons, List.length_append, String.length_utf8EncodeChar, ih, size_cons]

/-- The bytes of a string are those of its characters. -/
theorem bytes_toList (s : String) : bytes s.toList = s.toUTF8.data.toList := by
  have h (t : Text) : bytes t = (String.ofList t).toUTF8.data.toList := by
    rw [String.toUTF8_eq_toByteArray]
    exact List.toList_data_toByteArray.symm
  rw [h, String.ofList_toList]

/-! ### ASCII characters -/

theorem utf8EncodeChar_of_ascii {c : Char} (h : c.val.toNat < 128) :
    String.utf8EncodeChar c = [UInt8.ofNat c.val.toNat] := if_pos (Nat.le_of_lt_succ h)

/-- All bytes of a character beyond ASCII are beyond ASCII. -/
theorem le_toNat_of_mem_utf8EncodeChar {c : Char} (h : 128 ≤ c.val.toNat) {b : UInt8}
    (hb : b ∈ String.utf8EncodeChar c) : 128 ≤ b.toNat := by
  have hofNat : ∀ n, 128 ≤ n → n < 256 → 128 ≤ (UInt8.ofNat n).toNat := by
    intro n hn hlt
    rwa [UInt8.toNat_ofNat_of_lt' hlt]
  unfold String.utf8EncodeChar at hb
  generalize c.val.toNat = v at h hb
  simp only [if_neg (Nat.not_le.2 h)] at hb
  split at hb
  · simp only [List.mem_cons, List.not_mem_nil, or_false] at hb
    rcases hb with rfl | rfl <;> exact hofNat _ (by omega) (by omega)
  · split at hb
    · simp only [List.mem_cons, List.not_mem_nil, or_false] at hb
      rcases hb with rfl | rfl | rfl <;> exact hofNat _ (by omega) (by omega)
    · simp only [List.mem_cons, List.not_mem_nil, or_false] at hb
      rcases hb with rfl | rfl | rfl | rfl <;> exact hofNat _ (by omega) (by omega)

/-- The byte of a newline. -/
def newline : UInt8 := 10

/-- The byte of a newline is part of no other character. -/
theorem newline_mem_utf8EncodeChar_iff {c : Char} :
    newline ∈ String.utf8EncodeChar c ↔ c = '\n' := by
  constructor
  · intro h
    rcases Nat.lt_or_ge c.val.toNat 128 with hlt | hge
    · rw [utf8EncodeChar_of_ascii hlt, List.mem_singleton, ← UInt8.toNat_inj,
        UInt8.toNat_ofNat_of_lt' (Nat.lt_trans hlt (by decide))] at h
      exact Char.ext (UInt32.toNat_inj.1 h.symm)
    · exact absurd (le_toNat_of_mem_utf8EncodeChar hge h) (by decide)
  · rintro rfl
    decide

/-! ### Where a text stands among bytes -/

variable {t w : Text} {n : Nat}

/-- Offsets within the first character are no boundaries. -/
theorem isBoundary_cons_iff {c : Char} :
    IsBoundary (c :: t) n ↔ n = 0 ∨ c.utf8Size ≤ n ∧ t.IsBoundary (n - c.utf8Size) := by
  cases n with
  | zero => simp [IsBoundary]
  | succ n =>
    rw [IsBoundary, drop?]
    split
    · next h => simp [h, IsBoundary]
    · next h => simp [h]

/-- **The bytes at the boundaries are the first bytes of characters**, and no others are. -/
theorem isUTF8FirstByte_getElem_bytes_iff (h : n < (bytes t).length) :
    (bytes t)[n].IsUTF8FirstByte ↔ t.IsBoundary n := by
  induction t generalizing n with
  | nil => cases h
  | cons c t ih =>
    simp only [bytes_cons, List.getElem_append, String.length_utf8EncodeChar, isBoundary_cons_iff]
    split
    · rw [UInt8.isUTF8FirstByte_getElem_utf8EncodeChar]
      omega
    · rw [ih]
      have hpos := c.utf8Size_pos
      constructor
      · exact fun hb => Or.inr ⟨by omega, hb⟩
      · rintro (hzero | ⟨-, hb⟩)
        · omega
        · exact hb

theorem utf8EncodeChar_append_inj {c d : Char} {bs bs' : List UInt8}
    (h : String.utf8EncodeChar c ++ bs = String.utf8EncodeChar d ++ bs') : c = d := by
  have hc := ByteArray.utf8DecodeChar?_utf8EncodeChar_append (b := bs.toByteArray) (c := c)
  have hd := ByteArray.utf8DecodeChar?_utf8EncodeChar_append (b := bs'.toByteArray) (c := d)
  rw [← List.toByteArray_append] at hc hd
  rw [h, hd] at hc
  exact (Option.some.inj hc).symm

theorem bytes_prefix_iff : bytes w <+: bytes t ↔ w <+: t := by
  constructor
  · intro h
    induction w generalizing t with
    | nil => exact List.nil_prefix
    | cons c w ih =>
      obtain ⟨bs, hbs⟩ := h
      rw [bytes_cons, List.append_assoc] at hbs
      cases t with
      | nil => exact absurd (List.append_eq_nil_iff.1 hbs).1 String.utf8EncodeChar_ne_nil
      | cons d t =>
        rw [bytes_cons] at hbs
        obtain rfl := utf8EncodeChar_append_inj hbs
        exact List.cons_prefix_cons.2 ⟨rfl, ih ⟨bs, List.append_cancel_left hbs⟩⟩
  · rintro ⟨v, rfl⟩
    rw [bytes_append]
    exact List.prefix_append ..

theorem drop_size_bytes (u v : Text) : (bytes (u ++ v)).drop u.size = bytes v := by
  rw [bytes_append, ← length_bytes u, List.drop_left]

/-- **A text stands at an offset exactly if its bytes do.**  The offset need not be known to be a
boundary, since it is one if the first byte of a character is there. -/
theorem slice?_eq_some_iff_bytes (hw : w ≠ []) :
    t.slice? n (n + w.size) = some w ↔ bytes w <+: (bytes t).drop n := by
  constructor
  · intro h
    obtain ⟨u, v, rfl, rfl, -⟩ := slice?_eq_some_iff.1 h
    rw [List.append_assoc, drop_size_bytes, bytes_append]
    exact List.prefix_append ..
  · intro h
    -- the first byte of `w` stands at `n`, and it is the first one of a character
    have hboundary : t.IsBoundary n := by
      obtain ⟨c, w, rfl⟩ := List.exists_cons_of_ne_nil hw
      obtain ⟨bs, hbs⟩ := h
      have hpos := c.utf8Size_pos
      have hlt : n < (bytes t).length := by
        have hlen := congrArg List.length hbs
        rw [List.length_append, List.length_drop, length_bytes, size_cons] at hlen
        omega
      have hbyte : (bytes t)[n]? = (String.utf8EncodeChar c)[0]? := by
        rw [← Nat.add_zero n, ← List.getElem?_drop, ← hbs, bytes_cons, List.append_assoc,
          List.getElem?_append_left (by simpa using hpos)]
      rw [List.getElem?_eq_getElem hlt, List.getElem?_eq_getElem (by simpa using hpos)] at hbyte
      rw [← isUTF8FirstByte_getElem_bytes_iff hlt, Option.some.inj hbyte]
      exact UInt8.isUTF8FirstByte_getElem_zero_utf8EncodeChar
    obtain ⟨u, v, rfl, rfl⟩ := isBoundary_iff.1 hboundary
    rw [drop_size_bytes, bytes_prefix_iff] at h
    obtain ⟨v, rfl⟩ := h
    exact slice?_eq_some_iff.2 ⟨u, v, (List.append_assoc ..).symm, rfl, rfl⟩

end Text

end TagQuery
