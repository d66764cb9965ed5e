import TagQuery.Proofs.Reading
import TagQuery.Proofs.Run

/-!
# Which texts are queries

A text is a query, a query up to a gap, or a gap (`Text.query_cases`), and a run says which
(`parseWith_of_text`, `parseWith_of_query` and `parseWith_of_gap`).  What it says about a rejected
text is the place of the gap and what is missing there, and nothing of what came before.

The main result is `parse_exact`: the ordered choices, greedy repetitions and rewinds of the rules
accept exactly the texts that have a spelling, and read them as what they say.
-/

namespace TagQuery

variable {s : String}

theorem parseWith_eq {o : Outcome Query} (memoize : Bool)
    (h : Grammar.query.Yields s.toList 0 o) : parseWith memoize s = o.verdict s.toList := by
  obtain ⟨q, hq, -⟩ := Parser.drive_eq (p := Parser.new s memoize) h
  exact congrArg Prod.fst hq

theorem parseWith_of_gap (memoize : Bool) (g : OperandGap) (h : s.toList = g.text) :
    parseWith memoize s =
      .rejected (.ofFailure s.toList (g.place 0) g.expected .noMatch) := by
  have hy := Grammar.query_yields_gap (n := 0) g ((Text.rest_zero _).trans h)
  have hf : Furthest.empty.recordAll (g.failures 0) = ⟨g.place 0, g.expected⟩ :=
    g.recordAll (Nat.le_refl 0) fun _ => rfl
  rw [parseWith_eq memoize hy]
  simp [Outcome.verdict, Outcome.error, Outcome.furthest, hf]

/-- The furthest failure of a query up to a gap is at the gap. -/
theorem QuerySpelling.recordAll (w : QuerySpelling) (g : ClauseGap) :
    Furthest.empty.recordAll (w.failures 0 ++ g.failures w.text.size) =
      ⟨g.place w.text.size, g.expected⟩ := by
  have hpos : 0 < w.text.size := Text.size_pos w.text_ne_nil
  have hlt : (Furthest.empty.recordAll (w.failures 0)).offset < w.text.size := by
    refine Furthest.offset_recordAll_lt hpos fun f hf => ?_
    have := QuerySpelling.lt_of_mem_failures hf
    omega
  rw [Furthest.recordAll_append]
  exact g.recordAll hlt

/-- A query up to a gap is read up to there, and the rest is trailing input. -/
theorem parseWith_of_query (memoize : Bool) (w : QuerySpelling) (g : ClauseGap)
    (h : s.toList = w.text ++ g.text) (hg : g.text ≠ []) :
    parseWith memoize s = .rejected (.ofFailure s.toList (g.place w.text.size) g.expected
      (.trailingInput w.text.size)) := by
  have hy := Grammar.query_yields (n := 0) w g ((Text.rest_zero _).trans h)
  rw [Nat.zero_add] at hy
  have hstop : ¬ w.text.size = Text.size s.toList := by
    have := Text.size_pos hg
    rw [h, Text.size_append]
    omega
  -- the gap is where the query ends or behind it, so the end of the input is not asked for
  have hend : ¬ (g.expected = [] ∨ g.place w.text.size < w.text.size) := by
    have := g.le_place w.text.size
    rintro (he | hlt)
    · exact g.expected_ne_nil he
    · omega
  rw [parseWith_eq memoize hy]
  simp only [Outcome.verdict, hstop, ↓reduceIte, Outcome.error, Outcome.furthest,
    w.recordAll g, Furthest.isEmpty, List.isEmpty_iff, hend, and_false]

theorem parseWith_of_text (memoize : Bool) (w : QuerySpelling) (h : s.toList = w.text) :
    parseWith memoize s = .accepted (w.query 0) := by
  have hy := Grammar.query_yields (n := 0) w .finish ((Text.rest_zero _).trans (by simpa using h))
  rw [parseWith_eq memoize hy]
  simp [Outcome.verdict, h]

/-! ### The three cases -/

theorem Text.query_cases (t : Text) :
    (∃ w : QuerySpelling, t = w.text) ∨
      (∃ (w : QuerySpelling) (g : ClauseGap), t = w.text ++ g.text ∧ g.text ≠ []) ∨
        ∃ g : OperandGap, t = g.text := by
  rcases ClauseGap.exists_query_append t with ⟨g, hg⟩ | ⟨w, g, hw⟩
  · exact Or.inr (Or.inr ⟨g, hg⟩)
  · by_cases hg : g.text = []
    · exact Or.inl ⟨w, by simpa [hg] using hw⟩
    · exact Or.inr (Or.inl ⟨w, g, hw, hg⟩)

theorem parseWith_cases (memoize : Bool) (s : String) :
    (∃ w : QuerySpelling, s.toList = w.text ∧ parseWith memoize s = .accepted (w.query 0)) ∨
      (∃ (w : QuerySpelling) (g : ClauseGap), s.toList = w.text ++ g.text ∧
        parseWith memoize s = .rejected (.ofFailure s.toList (g.place w.text.size) g.expected
          (.trailingInput w.text.size))) ∨
        ∃ g : OperandGap, s.toList = g.text ∧ parseWith memoize s =
          .rejected (.ofFailure s.toList (g.place 0) g.expected .noMatch) := by
  rcases Text.query_cases s.toList with ⟨w, hw⟩ | ⟨w, g, hw, hg⟩ | ⟨g, hg⟩
  · exact Or.inl ⟨w, hw, parseWith_of_text memoize w hw⟩
  · exact Or.inr (Or.inl ⟨w, g, hw, parseWith_of_query memoize w g hw hg⟩)
  · exact Or.inr (Or.inr ⟨g, hg, parseWith_of_gap memoize g hg⟩)

theorem exists_of_accepted {memoize : Bool} {q : Query} (h : parseWith memoize s = .accepted q) :
    ∃ w : QuerySpelling, s.toList = w.text ∧ q = w.query 0 := by
  rcases parseWith_cases memoize s with ⟨w, hw, hv⟩ | ⟨w, g, -, hv⟩ | ⟨g, -, hv⟩
  · exact ⟨w, hw, Verdict.accepted.inj (h.symm.trans hv)⟩
  · cases h.symm.trans hv
  · cases h.symm.trans hv

theorem exists_of_rejected {memoize : Bool} {e : ParseError}
    (h : parseWith memoize s = .rejected e) :
    (∃ g : OperandGap, s.toList = g.text ∧
        e = .ofFailure s.toList (g.place 0) g.expected .noMatch) ∨
      ∃ (w : QuerySpelling) (g : ClauseGap), s.toList = w.text ++ g.text ∧
        e = .ofFailure s.toList (g.place w.text.size) g.expected (.trailingInput w.text.size) := by
  rcases parseWith_cases memoize s with ⟨w, -, hv⟩ | ⟨w, g, hw, hv⟩ | ⟨g, hg, hv⟩
  · cases h.symm.trans hv
  · exact Or.inr ⟨w, g, hw, Verdict.rejected.inj (h.symm.trans hv)⟩
  · exact Or.inl ⟨g, hg, Verdict.rejected.inj (h.symm.trans hv)⟩

theorem parseWith_ne_stuck (memoize : Bool) (s : String) (e : Fault) :
    parseWith memoize s ≠ .stuck e := by
  intro h
  rcases parseWith_cases memoize s with ⟨w, -, hv⟩ | ⟨w, g, -, hv⟩ | ⟨g, -, hv⟩ <;>
    cases h.symm.trans hv

theorem accepted_iff (memoize : Bool) (s : String) :
    (∃ q, parseWith memoize s = .accepted q) ↔ ∃ w : QuerySpelling, w.text = s.toList := by
  constructor
  · rintro ⟨q, hq⟩
    obtain ⟨w, hw, -⟩ := exists_of_accepted hq
    exact ⟨w, hw.symm⟩
  · rintro ⟨w, hw⟩
    exact ⟨w.query 0, parseWith_of_text memoize w hw.symm⟩

/-- **Reading is exact.**  A text is accepted if it has a spelling, and rejected otherwise; it has
no more than one, and the query that is read from it says what the spelling says: the same tags in
the same order, with the same signs and the same operators. -/
theorem parse_exact (s : String) :
    ((∃ q, parse s = .accepted q) ↔ ∃ w : QuerySpelling, w.text = s.toList) ∧
      ((∃ e, parse s = .rejected e) ↔ ¬ ∃ w : QuerySpelling, w.text = s.toList) ∧
      (∀ w w' : QuerySpelling, w.text = s.toList → w'.text = s.toList → w = w') ∧
      ∀ (q : Query) (w : QuerySpelling), parse s = .accepted q → w.text = s.toList →
        q.outline = w.outline := by
  have hiff := accepted_iff true s
  refine ⟨hiff, ?_, ?_, ?_⟩
  · -- a run that does not accept rejects, since it cannot get stuck
    rw [← hiff]
    constructor
    · rintro ⟨e, he⟩ ⟨q, hq⟩
      cases he.symm.trans hq
    · intro hnot
      cases hv : parse s with
      | accepted q => exact absurd ⟨q, hv⟩ hnot
      | rejected e => exact ⟨e, rfl⟩
      | stuck e => exact absurd hv (parseWith_ne_stuck true s e)
  · intro w w' hw hw'
    exact QuerySpelling.text_inj (hw.trans hw'.symm)
  · intro q w hq hw
    -- the spelling that was read is the only one
    obtain ⟨w', hw', rfl⟩ := exists_of_accepted hq
    obtain rfl := QuerySpelling.text_inj (hw.trans hw')
    exact QuerySpelling.outline_query 0 w

end TagQuery
