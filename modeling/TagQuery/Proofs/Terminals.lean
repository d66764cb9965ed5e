import TagQuery.Proofs.Case
import TagQuery.Text.Bytes

/-!
# Terminals compare bytes

A terminal cuts a piece out of the input and compares it as a text; where the input cannot be cut
it fails.  This module shows that it may as well be said to compare bytes, at any offset: a literal
matches exactly where its bytes stand in the input (`Text.slice?_eq_some_iff_bytes`), and a phrase
where they do after `A` to `Z` have been put into lower case byte by byte
(`Text.foldCase_slice?_iff_bytes`).  No byte of a character beyond ASCII is changed by that, and
what is refused for want of a boundary has not the same bytes either.

`Action.Decides` says what a terminal leaves in either case, and `terminals_compare_bytes` puts the
two together.
-/

namespace TagQuery

variable {c : Context} {s t : State} {rule : Rule} {token : Token} {accepts : Text → Bool}

/-! ### Bytes in lower case -/

namespace Text

variable {input w : Text} {n : Nat}

/-- A byte with those of `A` to `Z` in lower case. -/
def lowerByte (b : UInt8) : UInt8 := if 65 ≤ b.toNat ∧ b.toNat ≤ 90 then b + 32 else b

theorem lowerByte_ofNat {k : Nat} (h : k < 128) :
    lowerByte (UInt8.ofNat k) = UInt8.ofNat (if 65 ≤ k ∧ k ≤ 90 then k + 32 else k) := by
  have hk : (UInt8.ofNat k).toNat = k := UInt8.toNat_ofNat_of_lt' (Nat.lt_trans h (by decide))
  rw [lowerByte, hk]
  split
  · exact (UInt8.ofNat_add k 32).symm
  · rfl

theorem map_lowerByte_utf8EncodeChar (c : Char) :
    (String.utf8EncodeChar c).map lowerByte = String.utf8EncodeChar c.toLower := by
  have hl := toNat_toLower c
  rcases Nat.lt_or_ge c.toNat 128 with hlt | hge
  · have hlt' : c.toLower.toNat < 128 := by
      rw [hl]
      split <;> omega
    rw [utf8EncodeChar_of_ascii hlt, utf8EncodeChar_of_ascii hlt', List.map_singleton,
      lowerByte_ofNat (k := c.val.toNat) hlt]
    exact congrArg (fun k => [UInt8.ofNat k]) hl.symm
  · -- beyond ASCII neither the character nor any of its bytes is a letter to be put in lower case
    have hsame : c.toLower = c := by
      rw [← Char.toNat_inj, hl, if_neg (by omega)]
    have hbytes : ∀ b ∈ String.utf8EncodeChar c, lowerByte b = b := by
      intro b hb
      have := le_toNat_of_mem_utf8EncodeChar hge hb
      exact if_neg (by omega)
    rw [hsame, List.map_congr_left hbytes, List.map_id']

/-- **A text is put into lower case byte by byte.** -/
theorem bytes_foldCase (t : Text) : bytes t.foldCase = (bytes t).map lowerByte := by
  induction t with
  | nil => rfl
  | cons c t ih =>
    rw [foldCase_cons, bytes_cons, bytes_cons, List.map_append, map_lowerByte_utf8EncodeChar, ih]

/-- A text stands at an offset in some case exactly if its bytes do. -/
theorem foldCase_slice?_iff_bytes (hw : w ≠ []) :
    (input.slice? n (n + w.size)).map foldCase = some w.foldCase ↔
      (bytes w).map lowerByte <+: ((bytes input).drop n).map lowerByte := by
  have hne : w.foldCase ≠ [] := fun h => hw (List.map_eq_nil_iff.1 h)
  have key := slice?_eq_some_iff_bytes (t := input.foldCase) (n := n) hne
  rwa [size_foldCase, slice?_foldCase, bytes_foldCase, bytes_foldCase, ← List.map_drop] at key

theorem slice?_self_eq_some_iff : input.slice? n n = some [] ↔ input.IsBoundary n := by
  rw [slice?_eq_some_iff, isBoundary_iff]
  simp

theorem foldCase_slice?_self_iff :
    (input.slice? n n).map foldCase = some [] ↔ input.IsBoundary n := by
  rw [← slice?_self_eq_some_iff, Option.map_eq_some_iff]
  simp [foldCase]

end Text

/-! ### What a terminal leaves -/

namespace Action

/-- What is left by a terminal for `size` bytes, if a condition decides whether it matches.  If so,
the cursor moves on by the size, and the match is the span of what was passed.  If not, nothing is
changed but that one failure is recorded, of `e` at the cursor. -/
structure Decides (x : Action Span) (c : Context) (s : State) (size : Nat) (e : Expected)
    (condition : Prop) : Prop where
  matched : condition → ∃ span, Span.ofOffsets? s.cursor (s.cursor + size) = some span ∧
    x c s = .matched span { s with cursor := s.cursor + size }
  failed : ¬ condition → x c s = .failed { s with
    furthest := s.furthest.record s.cursor e
    calls := .expected s.cursor e :: s.calls }

theorem Decides.congr {x : Action Span} {size : Nat} {e : Expected} {p q : Prop}
    (h : x.Decides c s size e p) (hpq : p ↔ q) : x.Decides c s size e q :=
  ⟨fun hq => h.matched (hpq.2 hq), fun hq => h.failed (mt hpq.1 hq)⟩

/-- What is cut out of the input decides. -/
theorem terminal_decides (rule : Rule) (token : Token) (text : Text) (accepts : Text → Bool)
    (c : Context) (s : State) :
    (terminal rule token text accepts).Decides c s text.size (.new rule token)
      ((c.input.slice? s.cursor (s.cursor + text.size)).any accepts) :=
  ⟨fun h => ⟨_, Span.ofOffsets?_add .., if_pos h⟩, fun h => if_neg h⟩

theorem literal_decides (rule : Rule) (text : String) (c : Context) (s : State) :
    (literal rule text).Decides c s (Text.size text.toList) (.new rule (.literal text))
      (c.input.slice? s.cursor (s.cursor + Text.size text.toList) = some text.toList) := by
  refine (terminal_decides ..).congr ?_
  cases c.input.slice? s.cursor (s.cursor + Text.size text.toList) <;> simp

theorem phrase_decides (rule : Rule) (text : String) (c : Context) (s : State) :
    (phrase rule text).Decides c s (Text.size text.toList) (.new rule (.phrase text))
      ((c.input.slice? s.cursor (s.cursor + Text.size text.toList)).map Text.foldCase =
        some (Text.foldCase text.toList)) := by
  refine (terminal_decides ..).congr ?_
  cases c.input.slice? s.cursor (s.cursor + Text.size text.toList) <;> simp

theorem isBoundary_of_terminal {text : Text} {span : Span}
    (h : terminal rule token text accepts c s = .matched span t) :
    c.input.IsBoundary s.cursor ∧ c.input.IsBoundary (s.cursor + text.size) := by
  rw [terminal] at h
  split at h
  · next hany =>
    obtain ⟨w, hw, -⟩ := (Option.any_eq_true ..).1 hany
    exact (Text.exists_slice?_iff.1 ⟨w, hw⟩).2
  · cases h

end Action

/-- **Terminals compare bytes and never split a character.**  Wherever the cursor is, past the end
of the input and inside a character included,

* a literal matches exactly if the bytes of the input from the cursor on begin with those of its
  text, and a phrase exactly if they do after `A` to `Z` have been put into lower case in both;
* the empty text matches exactly at the boundaries of the input;
* a terminal that matches begins and ends at boundaries;
* it moves the cursor by the bytes of its text and nothing else, and matches with the span from
  where the cursor was to where it is then, as far as spans go;
* if it fails, the cursor stays where it is, and one failure is recorded there, of the rule and the
  token. -/
theorem terminals_compare_bytes (rule : Rule) (text : String) (c : Context) (s : State) :
    (text ≠ "" →
      (Action.literal rule text).Decides c s (Text.size text.toList) (.new rule (.literal text))
        (Text.bytes text.toList <+: (Text.bytes c.input).drop s.cursor) ∧
      (Action.phrase rule text).Decides c s (Text.size text.toList) (.new rule (.phrase text))
        ((Text.bytes text.toList).map Text.lowerByte <+:
          ((Text.bytes c.input).drop s.cursor).map Text.lowerByte)) ∧
    (text = "" →
      (Action.literal rule text).Decides c s 0 (.new rule (.literal text))
        (c.input.IsBoundary s.cursor) ∧
      (Action.phrase rule text).Decides c s 0 (.new rule (.phrase text))
        (c.input.IsBoundary s.cursor)) ∧
    ∀ span t,
      Action.literal rule text c s = .matched span t ∨
        Action.phrase rule text c s = .matched span t →
      c.input.IsBoundary s.cursor ∧ c.input.IsBoundary (s.cursor + Text.size text.toList) := by
  refine ⟨fun hne => ?_, ?_, ?_⟩
  · have hne : text.toList ≠ [] := mt String.toList_eq_nil_iff.1 hne
    exact ⟨(Action.literal_decides ..).congr (Text.slice?_eq_some_iff_bytes hne),
      (Action.phrase_decides ..).congr (Text.foldCase_slice?_iff_bytes hne)⟩
  · rintro rfl
    exact ⟨(Action.literal_decides ..).congr Text.slice?_self_eq_some_iff,
      (Action.phrase_decides ..).congr Text.foldCase_slice?_self_iff⟩
  · rintro span t (h | h)
    · exact Action.isBoundary_of_terminal h
    · exact Action.isBoundary_of_terminal h

/-- Between an `x` and an `é`, the phrase `Ét` is read from `ÉT` and the literal is not; inside the
`É` not even the empty text is. -/
theorem terminals_compare_bytes_accent :
    let c : Context := ⟨"xÉTé".toList, true, 9⟩
    let s : State := State.initial.moveTo 1
    "Ét" ≠ "" ∧
      (∃ span, Span.ofOffsets? 1 4 = some span ∧
        Action.phrase .tag "Ét" c s = .matched span (s.moveTo 4) ∧
        c.input.IsBoundary 1 ∧ c.input.IsBoundary 4) ∧
      Action.literal .tag "Ét" c s = .failed (s.expect 1 (.new .tag (.literal "Ét"))) ∧
      Action.literal .tag "" c (s.moveTo 2) =
        .failed ((s.moveTo 2).expect 2 (.new .tag (.literal ""))) := by
  intro c s
  have hne : "Ét" ≠ "" := by decide
  obtain ⟨hbytes, -, hboundary⟩ := terminals_compare_bytes .tag "Ét" c s
  obtain ⟨hliteral, hphrase⟩ := hbytes hne
  obtain ⟨span, hspan, hmatched⟩ := hphrase.matched (by decide)
  obtain ⟨hempty, -⟩ := (terminals_compare_bytes .tag "" c (s.moveTo 2)).2.1 rfl
  exact ⟨hne, ⟨span, hspan, hmatched, hboundary span _ (Or.inr hmatched)⟩,
    hliteral.failed (by decide), hempty.failed (by decide)⟩

end TagQuery
