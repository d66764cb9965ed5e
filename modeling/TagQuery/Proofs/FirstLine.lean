import TagQuery.Proofs.Case
import TagQuery.Proofs.History
import TagQuery.Proofs.Rendering

/-!
# Errors point into the first line

A text is plain if it is ASCII without newlines and carriage returns (`Text.IsPlain`).  All that the
terminals of the grammar read is plain, whatever the input is, so the cursor, the ends of entries
and the furthest failure stay behind plain text (`State.Plain`).

An offset behind plain text is on the first line, and its column counts bytes
(`LineIndex.position_of_plain`).  So the last lines of the message are known
(`Message.excerpt_one`, `Message.caret_one`).
-/

namespace TagQuery

variable {α : Type} {t u v w : Text} {n k : Nat}

/-! ### Plain text -/

namespace Text

/-- Only ASCII characters, and neither newlines nor carriage returns. -/
def IsPlain (t : Text) : Prop := ∀ c ∈ t, c.toNat < 128 ∧ c ≠ '\n' ∧ c ≠ '\r'

instance (t : Text) : Decidable t.IsPlain := List.decidableBAll _ t

/-- The first `n` bytes of the text are plain text. -/
def PlainUpTo (t : Text) (n : Nat) : Prop := ∃ u, t.take? n = some u ∧ u.IsPlain

theorem IsPlain.append (hu : u.IsPlain) (hv : v.IsPlain) : (u ++ v).IsPlain := fun c hc =>
  (List.mem_append.1 hc).elim (hu c) (hv c)

theorem IsPlain.of_foldCase (h : t.foldCase.IsPlain) : t.IsPlain := by
  intro c hc
  obtain ⟨hascii, hnewline, hreturn⟩ := h c.toLower (List.mem_map_of_mem hc)
  refine ⟨?_, mt (toLower_eq_iff (d := '\n') rfl).2 hnewline,
    mt (toLower_eq_iff (d := '\r') rfl).2 hreturn⟩
  rw [toNat_toLower] at hascii
  split at hascii <;> omega

theorem IsPlain.size_eq (h : t.IsPlain) : t.size = t.length := by
  induction t with
  | nil => rfl
  | cons c t ih =>
    have hc : c.utf8Size = 1 := by
      have hascii : c.val.toNat < 128 := (h c List.mem_cons_self).1
      exact if_pos (show c.val.toNat ≤ 127 by omega)
    rw [size_cons, ih fun d hd => h d (List.mem_cons_of_mem c hd), hc, List.length_cons,
      Nat.add_comm]

theorem plainUpTo_zero (t : Text) : t.PlainUpTo 0 := ⟨[], take?_zero t, by simp [IsPlain]⟩

theorem plainUpTo_iff : t.PlainUpTo n ↔ ∃ u v, t = u ++ v ∧ u.size = n ∧ u.IsPlain := by
  simp only [PlainUpTo, take?_eq_some_iff]
  exact ⟨fun ⟨u, ⟨v, ht, hn⟩, hu⟩ => ⟨u, v, ht, hn, hu⟩,
    fun ⟨u, v, ht, hn, hu⟩ => ⟨u, ⟨v, ht, hn⟩, hu⟩⟩

theorem PlainUpTo.add (h : t.PlainUpTo n) (hw : t.slice? n (n + k) = some w) (hplain : w.IsPlain) :
    t.PlainUpTo (n + k) := by
  obtain ⟨u, v, rfl, rfl, hu⟩ := plainUpTo_iff.1 h
  obtain ⟨u', v', heq, hsize, hk⟩ := slice?_eq_some_iff.1 hw
  rw [List.append_assoc] at heq
  obtain ⟨rfl, rfl⟩ := append_inj_size heq hsize.symm
  refine plainUpTo_iff.2 ⟨u ++ w, v', (List.append_assoc ..).symm, ?_, hu.append hplain⟩
  rw [size_append, hk]

end Text

/-! ### What stays behind plain text -/

/-- The cursor, the ends of entries and the furthest failure are behind plain text. -/
structure State.Plain (input : Text) (s : State) : Prop where
  cursor : input.PlainUpTo s.cursor
  furthest : input.PlainUpTo s.furthest.offset
  stop : ∀ rule n entry, s.memo.find? rule n = some entry → input.PlainUpTo entry.stop

namespace State.Plain

variable {input : Text} {s : State}

theorem initial (input : Text) : State.initial.Plain input := by
  refine ⟨Text.plainUpTo_zero input, Text.plainUpTo_zero input, fun rule n entry he => ?_⟩
  rw [State.initial, MemoTable.find?_empty] at he
  cases he

theorem moveTo (h : s.Plain input) (hn : input.PlainUpTo n) : (s.moveTo n).Plain input :=
  ⟨hn, h.furthest, h.stop⟩

/-- What is recorded at an offset moves the furthest failure there or not at all. -/
theorem record (h : s.Plain input) (hn : input.PlainUpTo n) (e : Expected) :
    input.PlainUpTo (s.furthest.record n e).offset := by
  rw [Furthest.offset_record]
  rcases Nat.le_total s.furthest.offset n with hle | hle
  · rwa [Nat.max_eq_right hle]
  · rw [Nat.max_eq_left hle]
    exact h.furthest

theorem expect (h : s.Plain input) (hn : input.PlainUpTo n) (e : Expected) :
    (s.expect n e).Plain input := ⟨h.cursor, h.record hn e, h.stop⟩

theorem expectEnd (h : s.Plain input) : (Parser.expectEnd s).Plain input := by
  refine ⟨?_, ?_, fun rule n entry he => h.stop rule n entry (by rwa [Parser.memo_expectEnd] at he)⟩
  · rw [Parser.cursor_expectEnd]
    exact h.cursor
  · rw [Parser.furthest_expectEnd]
    split
    · exact h.record h.cursor _
    · exact h.furthest

theorem lookup (h : s.Plain input) (memoize : Bool) (rule : Rule) :
    (s.lookup memoize rule s.cursor).2.Plain input := by
  refine ⟨by simpa using h.cursor, by simpa using h.furthest, fun rule' n entry he => ?_⟩
  rw [State.find?_lookup] at he
  exact h.stop rule' n entry he

/-- The end of the new entry is where the cursor is. -/
theorem store (h : s.Plain input) (memoize : Bool) (rule : Rule) (n : Nat) (result : Option Node) :
    (s.store memoize rule n ⟨result, s.cursor⟩).Plain input := by
  refine ⟨h.cursor, h.furthest, fun rule' n' entry he => ?_⟩
  rcases State.find?_store_cases he with ⟨-, -, rfl⟩ | he
  · exact h.cursor
  · exact h.stop rule' n' entry he

end State.Plain

namespace Grammar

open TagQuery.Action

/-- A terminal that accepts nothing but plain text stays behind plain text. -/
theorem terminal_plain {rule : Rule} {token : Token} {text : Text} {accepts : Text → Bool}
    (h : ∀ w, accepts w → w.IsPlain) {c : Context} {s : State} (hs : s.Plain c.input) :
    (terminal rule token text accepts c s).Leaves (State.Plain c.input) := by
  unfold terminal
  split
  · next hany =>
    obtain ⟨w, hw, haccepts⟩ := (Option.any_eq_true ..).1 hany
    exact hs.moveTo (hs.cursor.add hw (h w haccepts))
  · exact hs.expect hs.cursor _

theorem literal_plain (rule : Rule) {text : String} (h : Text.IsPlain text.toList) {c : Context}
    {s : State} (hs : s.Plain c.input) :
    (literal rule text c s).Leaves (State.Plain c.input) := by
  refine terminal_plain (fun w hw => ?_) hs
  rw [of_decide_eq_true hw]
  exact h

theorem phrase_plain (rule : Rule) {text : String}
    (h : Text.IsPlain (Text.foldCase text.toList)) {c : Context} {s : State}
    (hs : s.Plain c.input) : (phrase rule text c s).Leaves (State.Plain c.input) := by
  refine terminal_plain (fun w hw => Text.IsPlain.of_foldCase ?_) hs
  rw [of_decide_eq_true hw]
  exact h

/-- **No terminal of the grammar reads anything but plain text.** -/
theorem Terminal.plain {x : Action Span} (h : Terminal x) {c : Context} {s : State}
    (hs : s.Plain c.input) : (x c s).Leaves (State.Plain c.input) := by
  cases h with
  | sign => exact literal_plain _ (by decide) hs
  | space => exact literal_plain _ (by decide) hs
  | operator hrow =>
    have hplain : ∀ row ∈ operators, Text.IsPlain row.1.toList := by decide
    exact literal_plain _ (hplain _ hrow) hs
  | tag tag => exact phrase_plain _ (by cases tag <;> decide) hs

/-- Everything stays behind plain text, whatever is built from these terminals. -/
theorem keeps_plain (c : Context) :
    c.Keeps Terminal [] fun s t => s.Plain c.input → t.Plain c.input where
  refl _ hs := hs
  trans h h' hs := h' (h hs)
  moveTo _ _ hn := by cases hn
  rewind h hs := (h hs).moveTo hs.cursor
  terminal _ _ hx := .of_imp hx.plain
  replay hlook hs :=
    (hs.lookup _ _).moveTo (hs.stop _ _ _ (State.fst_lookup_eq_some_iff.1 hlook).2)
  store result _ h hs := (h (hs.lookup _ _)).store _ _ _ result

end Grammar

/-! ### Positions on the first line -/

namespace LineIndex

/-- **Behind plain text is the first line, and columns count bytes.** -/
theorem position_of_plain (h : t.PlainUpTo n) : (ofText t).position t n = ⟨1, n + 1⟩ := by
  obtain ⟨u, v, rfl, rfl, hu⟩ := Text.plainUpTo_iff.1 h
  have hnewline : ∀ c ∈ u, decide (c ≠ '\n') = true := fun c hc => by simpa using (hu c hc).2.1
  have hline := Text.hasLine_zero (u ++ v)
  rw [List.takeWhile_append_of_pos hnewline] at hline
  have hposition := hline.position_eq
  rwa [Text.size_nil, Nat.zero_add, Nat.zero_add, ← hu.size_eq] at hposition

end LineIndex

/-! ### The lines of a message about the first line -/

namespace Message

open LineIndex

variable {input : Text}

theorem gutter_one : gutter 1 = "     1 | " := by decide +kernel

theorem excerpt_one (input : Text) (column : Nat) : excerpt input ⟨1, column⟩ =
    "     1 | ".toList ++ trimReturn (input.takeWhile (· ≠ '\n')) := by
  rw [excerpt, gutter_one]
  exact congrArg _ (Text.hasLine_zero input).lineText_eq

theorem caret_one (n : Nat) : caret ⟨1, n + 1⟩ = Text.spaces (9 + n) ++ ['^'] := by
  rw [caret, gutter_one]
  rfl

theorem prefix_render (h : input.PlainUpTo n) (expected : List Expected) :
    "Line 1: expected one of:".toList <+: (render input n expected).toList := by
  have hhead : ("Line " ++ toString 1 ++ ": expected one of:\n\n").toList =
      "Line 1: expected one of:".toList ++ ['\n', '\n'] := by decide +kernel
  rw [toList_render (position_of_plain h), heading, String.toList_append, hhead, List.append_assoc,
    List.append_assoc]
  exact List.prefix_append ..

end Message

/-! ### Rejected inputs -/

theorem Parser.eq_of_drive_rejected {p : Parser} {top : Action α} {e : ParseError}
    (h : (p.drive top).1 = .rejected e) :
    ∃ reason, e = .ofFailure p.input (p.drive top).2.state.furthest.offset
      (p.drive top).2.state.furthest.expected reason := by
  cases htop : top (p.restart.context 0) p.restart.state with
  | matched a t =>
    rw [drive_of_matched htop] at h ⊢
    split at h
    · cases h
    · next hstop =>
      rw [if_neg hstop]
      exact ⟨_, (Verdict.rejected.inj h).symm⟩
  | failed t =>
    rw [drive_of_failed htop] at h ⊢
    exact ⟨_, (Verdict.rejected.inj h).symm⟩
  | stuck fault =>
    rw [drive_of_stuck htop] at h
    cases h

/-- The furthest failure of a run over the grammar is behind plain text. -/
theorem Parser.plain_drive {p : Parser} {top : Action α} (h : top.Built Grammar.Terminal []) :
    (p.drive top).2.state.Plain p.input := by
  have hstart := State.Plain.initial p.input
  refine drive_leaves ?_ (fun _ ht => ht.expectEnd) fun _ _ => hstart
  exact (h.leaves (Grammar.keeps_plain _) _).mono fun _ ht => ht hstart

/-- **Errors point into the first line, at a column of ASCII text.**  Whatever the input holds, with
newlines, carriage returns and other characters anywhere, what stands before the place of an error
is ASCII without newlines and carriage returns; so the place is on line 1, and its column is the
offset, counted from 1.  The message begins with that line number, its last line but one shows the
first line of the input without the carriage return that may end it, and its last line has a caret
under the place. -/
theorem rejected_on_first_line (s : String) (e : ParseError)
    (h : (∃ rule, parseRule rule s = .rejected e) ∨ parse s = .rejected e) :
    e.offset ≤ Text.size s.toList ∧ Text.IsBoundary s.toList e.offset ∧
      (∃ u, Text.take? e.offset s.toList = some u ∧
        ∀ c ∈ u, c.toNat < 128 ∧ c ≠ '\n' ∧ c ≠ '\r') ∧
      e.position = ⟨1, e.offset + 1⟩ ∧ "Line 1: expected one of:".toList <+: e.message.toList ∧
      ∃ ls, e.message.toList.splitOn '\n' = ls ++
        ["     1 | ".toList ++ LineIndex.trimReturn (s.toList.takeWhile (· ≠ '\n')),
          Text.spaces (9 + e.offset) ++ ['^']] := by
  obtain ⟨n, expected, reason, hplain, rfl⟩ : ∃ n expected reason,
      Text.PlainUpTo s.toList n ∧ e = .ofFailure s.toList n expected reason := by
    rcases h with ⟨rule, h⟩ | h
    · obtain ⟨reason, he⟩ := Parser.eq_of_drive_rejected h
      exact ⟨_, _, reason, (Parser.plain_drive rule.built).furthest, he⟩
    · obtain ⟨reason, he⟩ := Parser.eq_of_drive_rejected h
      exact ⟨_, _, reason, (Parser.plain_drive Grammar.query_built).furthest, he⟩
  obtain ⟨u, v, ht, hn, hu⟩ := Text.plainUpTo_iff.1 hplain
  have hboundary : Text.IsBoundary s.toList n := Text.isBoundary_iff.2 ⟨u, v, ht, hn⟩
  refine ⟨hboundary.le_size, hboundary, hplain, LineIndex.position_of_plain hplain, ?_, ?_⟩
  · exact Message.prefix_render hplain expected
  · refine ⟨(Message.heading 1 expected).splitOn '\n', ?_⟩
    rw [← Message.excerpt_one s.toList (n + 1), ← Message.caret_one]
    exact Message.splitOn_render (LineIndex.position_of_plain hplain) expected

/-- An error behind `booster `, in an input with a character of two bytes and a carriage return. -/
theorem rejected_on_first_line_accent :
    ∃ e, parse "booster é\r\n|" = .rejected e ∧ e.offset = 8 ∧ e.position = ⟨1, 9⟩ ∧
      ∃ ls, e.message.toList.splitOn '\n' =
        ls ++ ["     1 | booster é".toList, Text.spaces 17 ++ ['^']] := by
  have h : parse "booster é\r\n|" = .rejected (.ofFailure "booster é\r\n|".toList 8
      (Expected.space :: Expected.operators) (.trailingInput 7)) := by
    decide +kernel
  obtain ⟨-, -, -, hposition, -, ls, hlines⟩ := rejected_on_first_line _ _ (Or.inr h)
  have hline : "     1 | ".toList ++
      LineIndex.trimReturn ("booster é\r\n|".toList.takeWhile (· ≠ '\n')) =
        "     1 | booster é".toList := by decide +kernel
  rw [hline] at hlines
  exact ⟨_, h, rfl, hposition, ls, hlines⟩

end TagQuery
