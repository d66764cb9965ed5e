import TagQuery.Parser
import TagQuery.Proofs.Outcome

/-!
# What a run comes to

A run adds to the outcome of its top action the check that the input ends where the action stops.
`Outcome.verdict` and `Outcome.view` say what comes of it, and `Parser.drive_eq` that a parser does
so, with or without a memo table.

A run begins with a clean state, whatever the parser has been used for before.
-/

namespace TagQuery

variable {α β : Type}

/-- The verdict with another value. -/
def Verdict.map (f : α → β) : Verdict α → Verdict β
  | accepted a => accepted (f a)
  | rejected e => rejected e
  | stuck e => stuck e

/-- What can be seen of a parser from outside, apart from its memo table. -/
structure View where
  cursor : Nat
  furthest : Furthest
  stage : Stage
deriving DecidableEq, Repr

/-- What can be seen of the parser. -/
def Parser.view (p : Parser) : View := ⟨p.state.cursor, p.state.furthest, p.stage⟩

namespace Outcome

/-- The furthest failure at the end of a run. -/
def furthest (input : Text) (o : Outcome α) : Furthest :=
  let f := Furthest.empty.recordAll o.failures
  if o.result.isSome ∧ o.stop ≠ input.size ∧ (f.isEmpty ∨ f.offset < o.stop) then
    f.record o.stop .endOfInput
  else f

/-- The error of a run that rejects the input. -/
def error (input : Text) (o : Outcome α) (reason : RejectReason) : ParseError :=
  .ofFailure input (o.furthest input).offset (o.furthest input).expected reason

/-- How a run ends. -/
def verdict (input : Text) (o : Outcome α) : Verdict α :=
  match o.result with
  | some a =>
    if o.stop = input.size then .accepted a else .rejected (o.error input (.trailingInput o.stop))
  | none => .rejected (o.error input .noMatch)

/-- What can be seen after a run. -/
def view (input : Text) (o : Outcome α) : View where
  cursor := o.stop
  furthest := o.furthest input
  stage := if o.result.isSome ∧ o.stop = input.size then .accepted else .rejected

theorem verdict_map (f : α → β) (input : Text) (o : Outcome α) :
    (o.map f).verdict input = (o.verdict input).map f := by
  obtain ⟨_ | a, stop, fs⟩ := o
  · rfl
  · by_cases h : stop = input.size
    · simp [verdict, map, Verdict.map, h]
    · simp [verdict, map, Verdict.map, h, error, furthest]

end Outcome

namespace Parser

theorem size_lt_rounds (p : Parser) (moves : Nat) :
    p.input.size < (p.context moves).rounds := by
  have := p.places_lt_rounds moves
  simp only [context]
  omega

@[simp] theorem cursor_expectEnd (s : State) : (expectEnd s).cursor = s.cursor := by
  unfold expectEnd
  split <;> rfl

/-- The end of the input is no rule, so that nothing is stored. -/
@[simp] theorem memo_expectEnd (s : State) : (expectEnd s).memo = s.memo := by
  unfold expectEnd
  split <;> rfl

theorem furthest_expectEnd (s : State) : (expectEnd s).furthest =
    if s.furthest.isEmpty ∨ s.furthest.offset < s.cursor then
      s.furthest.record s.cursor .endOfInput
    else s.furthest := by
  unfold expectEnd
  split <;> rename_i h
  · rw [if_pos (by simpa using h)]
  · rw [if_neg (by simpa using h)]

theorem sound_expectEnd {c : Context} {s : State} (h : s.Sound c) : (expectEnd s).Sound c := by
  refine h.of_covers (fun rule n => ?_) fun fs hf => ?_
  · rw [memo_expectEnd]
  · rw [furthest_expectEnd]
    split
    · exact hf.record _ _
    · exact hf

/-- **A run comes to what its top action comes to**, and leaves a sound state. -/
theorem drive_eq {p : Parser} {top : Action α} {o : Outcome α} (h : top.Yields p.input 0 o) :
    ∃ q : Parser, p.drive top = (o.verdict p.input, q) ∧ q.input = p.input ∧
      q.memoize = p.memoize ∧ q.view = o.view p.input ∧ q.state.Sound (q.context 0) := by
  obtain ⟨t, ht, hl, hs⟩ := h (p.restart.context 0) p.restart.state rfl
    (p.restart.size_lt_rounds 0) rfl (State.sound_of_empty rfl)
  have hcursor := hl.cursor
  have hfurthest : t.furthest = Furthest.empty.recordAll o.failures := hl.furthest
  obtain ⟨_ | a, stop, fs⟩ := o
  -- a failure ends the run as it is; a match is weighed against the end of the input
  · have hf : t.furthest = (⟨none, stop, fs⟩ : Outcome α).furthest p.input := by
      rw [hfurthest, Outcome.furthest, if_neg (by simp)]
    refine ⟨{ p with state := t, stage := .rejected }, ?_, rfl, rfl, ?_, hs⟩
    · rw [drive_of_failed ht]
      simp only [Outcome.verdict, Outcome.error, reject, hf]
    · simp [view, Outcome.view, hcursor, hf]
  · by_cases hstop : stop = p.input.size
    · refine ⟨{ p with state := t, stage := .accepted }, ?_, rfl, rfl, ?_, hs⟩
      · rw [drive_of_matched ht, if_pos (hcursor.trans hstop), Outcome.verdict]
        exact congrArg (·, _) (if_pos hstop).symm
      · simp [view, Outcome.view, Outcome.furthest, hcursor, hfurthest, hstop]
    · -- what follows the match is trailing input, and the end may have been missing
      have hf : (expectEnd t).furthest = (⟨some a, stop, fs⟩ : Outcome α).furthest p.input := by
        simp [furthest_expectEnd, Outcome.furthest, hcursor, hfurthest, hstop]
      refine ⟨{ p with state := expectEnd t, stage := .rejected }, ?_, rfl, rfl, ?_,
        sound_expectEnd hs⟩
      · rw [drive_of_matched ht, hcursor, if_neg hstop]
        simp only [Outcome.verdict, Outcome.error, hstop, ↓reduceIte, reject, hf]
      · simp [view, Outcome.view, hf, hcursor, hstop]

theorem exists_newAt {x : Action α} {s : String} {n : Nat} {o : Outcome α}
    (h : x.Yields s.toList n o) (memoize : Bool) :
    ∃ t, x ((newAt s memoize n).context 0) (newAt s memoize n).state = o.reply t ∧
      t.cursor = o.stop := by
  obtain ⟨t, ht, hl, -⟩ := h ((newAt s memoize n).context 0) (newAt s memoize n).state rfl
    ((newAt s memoize n).size_lt_rounds 0) rfl (State.sound_of_empty rfl)
  exact ⟨t, ht, hl.cursor⟩

end Parser

end TagQuery
