import TagQuery.Session
import TagQuery.Proofs.Run
import TagQuery.Proofs.Settling

/-!
# Memoization cannot be seen

Two parsers that read the same input and look the same from outside, one with a memo table and one
without, go on to look the same and to give the same answers, whatever plain steps they are asked
to do.  The invariant (`Parser.Shows`) is about one parser: what can be seen of it, and a memo
table with nothing wrong in it.  It determines what a plain step answers and shows
(`Step.exists_seen`), hence also what a list of them does (`Parser.exists_steps_seen`), and that
for all parsers that show the same.

A step is plain if it does not ask or fill the memo table itself and does not evaluate an expression
that does, or that moves the cursor to an offset of its own.
-/

namespace TagQuery

variable {α : Type} {input : Text} {v : View} {p : Parser}

/-- The answer of a step, and what can be seen after it. -/
def Report.seen (r : Report) : Answer × View := (r.answer, r.parser.view)

/-- The step does not deal with the memo table itself. -/
def Step.isPlain : Step → Bool
  | .look | .run | .runRule _ | .moveTo _ | .expect .. => true
  | .eval expr => expr.isPlain
  | .lookup .. | .store .. => false

/-- The parser reads `input` and looks like `v`, and there is nothing wrong with its memo table. -/
structure Parser.Shows (p : Parser) (input : Text) (v : View) : Prop where
  input_eq : p.input = input
  view_eq : p.view = v
  sound : p.state.Sound (p.context 0)

theorem Parser.shows_new (s : String) (memoize : Bool) :
    (Parser.new s memoize).Shows s.toList ⟨0, .empty, .ready⟩ :=
  ⟨rfl, rfl, State.sound_of_empty rfl⟩

theorem Parser.Shows.sound_calls (h : p.Shows input v) (calls : List Call) :
    State.Sound (p.context 0) { p.state with calls } :=
  h.sound.of_covers (fun _ _ => rfl) fun _ hf => hf

theorem Parser.Shows.drive {top : Action α} {o : Outcome α} (h : p.Shows input v)
    (ho : top.Yields input 0 o) :
    ∃ q, p.drive top = (o.verdict input, q) ∧ q.Shows input (o.view input) := by
  obtain ⟨rfl, -, -⟩ := h
  obtain ⟨q, hq, hinput, -, hview, hs⟩ := Parser.drive_eq ho
  exact ⟨q, hq, hinput, hview, hs⟩

theorem Outcome.verdict_ne_stuck (o : Outcome α) (input : Text) (e : Fault) :
    o.verdict input ≠ .stuck e := by
  obtain ⟨_ | a, stop, fs⟩ := o
  · simp [verdict]
  · by_cases h : stop = input.size
    · simp [verdict, h]
    · simp [verdict, h]

/-- The answer of a step that evaluates an expression. -/
def Outcome.answer (o : Outcome Value) : Answer :=
  match o.result with
  | some value => .matched value
  | none => .failed

namespace Step

/-- **What a plain step answers and shows depends only on what the parser showed before.** -/
theorem exists_seen {x : Step} (hx : x.isPlain) (input : Text) (v : View) :
    ∃ seen : Answer × View, ∀ p : Parser, p.Shows input v →
      ∃ r, p.step x = .ok r ∧ r.seen = seen ∧ r.parser.Shows input seen.2 := by
  cases x with
  | look =>
    refine ⟨(.done, v), fun p hp => ?_⟩
    have hs := hp.sound_calls []
    obtain ⟨rfl, rfl, -⟩ := hp
    exact ⟨_, rfl, rfl, rfl, rfl, hs⟩
  | moveTo n =>
    refine ⟨(.done, ⟨n, v.furthest, v.stage⟩), fun p hp => ?_⟩
    have hs := (hp.sound_calls []).moveTo n
    obtain ⟨rfl, rfl, -⟩ := hp
    exact ⟨_, rfl, rfl, rfl, rfl, hs⟩
  | expect n e =>
    refine ⟨(.done, ⟨v.cursor, v.furthest.record n e, v.stage⟩), fun p hp => ?_⟩
    have hs := (hp.sound_calls []).expect n e
    obtain ⟨rfl, rfl, -⟩ := hp
    exact ⟨_, rfl, rfl, rfl, rfl, hs⟩
  | lookup rule n => cases hx
  | store rule n entry => cases hx
  | run =>
    obtain ⟨o, ho, -⟩ := Grammar.query_settles input 0
    refine ⟨(.query (o.verdict input), o.view input), fun p hp => ?_⟩
    obtain ⟨q, hq, hshows⟩ := hp.drive ho
    refine ⟨⟨.query (o.verdict input), [], q⟩, ?_, Prod.ext rfl hshows.view_eq, hshows⟩
    -- a session would end with a fault, which is no verdict of such a run
    have hne := o.verdict_ne_stuck input
    simp only [Parser.step, Parser.run, hq]
  | runRule rule =>
    obtain ⟨o, ho, -⟩ := rule.settles input 0
    refine ⟨(.node (o.verdict input), o.view input), fun p hp => ?_⟩
    obtain ⟨q, hq, hshows⟩ := hp.drive ho
    refine ⟨⟨.node (o.verdict input), [], q⟩, ?_, Prod.ext rfl hshows.view_eq, hshows⟩
    have hne := o.verdict_ne_stuck input
    simp only [Parser.step, Parser.runRule, hq]
  | eval expr =>
    obtain ⟨o, ho, -⟩ := expr.settles input hx v.cursor
    refine ⟨(o.answer, ⟨o.stop, v.furthest.recordAll o.failures, v.stage⟩), fun p hp => ?_⟩
    have hsound := hp.sound_calls []
    obtain ⟨rfl, rfl, -⟩ := hp
    obtain ⟨t, ht, hl, hs⟩ := ho (p.context expr.moves) { p.state with calls := [] } rfl
      (p.size_lt_rounds expr.moves) rfl hsound
    have hstep : p.step (.eval expr) = .ok (p.report o.answer t) := by
      simp only [Parser.step, ht]
      obtain ⟨_ | a, stop, fs⟩ := o <;> rfl
    have hf : t.furthest = p.view.furthest.recordAll o.failures := hl.furthest
    have hview : (p.report o.answer t).parser.view =
        ⟨o.stop, p.view.furthest.recordAll o.failures, p.view.stage⟩ := by
      rw [← hl.cursor, ← hf]
      rfl
    exact ⟨_, hstep, Prod.ext rfl hview, rfl, hview, hs⟩

end Step

namespace Parser

/-- What plain steps answer and show depends only on what the parser showed before them. -/
theorem exists_steps_seen {xs : List Step} (hxs : ∀ x ∈ xs, x.isPlain) (input : Text) (v : View) :
    ∃ seen : List (Answer × View), ∀ p : Parser, p.Shows input v →
      ∃ rs, p.steps xs = (rs, none) ∧ rs.map Report.seen = seen := by
  induction xs generalizing v with
  | nil => exact ⟨[], fun p _ => ⟨[], rfl, rfl⟩⟩
  | cons x xs ih =>
    obtain ⟨y, hy⟩ := Step.exists_seen (hxs x List.mem_cons_self) input v
    obtain ⟨ys, hys⟩ := ih (fun x' hx' => hxs x' (List.mem_cons_of_mem x hx')) y.2
    refine ⟨y :: ys, fun p hp => ?_⟩
    obtain ⟨r, hr, hseen, hshows⟩ := hy p hp
    obtain ⟨rs, hrs, hmap⟩ := hys r.parser hshows
    refine ⟨r :: rs, ?_, ?_⟩
    · simp only [steps, hr, hrs]
    · rw [List.map_cons, hseen, hmap]

end Parser

theorem Parser.exists_of_steps_cons {p : Parser} {x : Step} {xs : List Step} {rs : List Report}
    (h : p.steps (x :: xs) = (rs, none)) :
    ∃ r rs', rs = r :: rs' ∧ p.step x = .ok r ∧ r.parser.steps xs = (rs', none) := by
  rw [steps] at h
  cases hx : p.step x with
  | error e => simp [hx] at h
  | ok r =>
    simp only [hx, Prod.mk.injEq] at h
    obtain ⟨rfl, hrs⟩ := h
    exact ⟨r, _, rfl, rfl, Prod.ext rfl hrs⟩

theorem Parser.length_of_steps {p : Parser} {xs : List Step} {rs : List Report}
    (h : p.steps xs = (rs, none)) : rs.length = xs.length := by
  induction xs generalizing p rs with
  | nil =>
    obtain rfl : [] = rs := congrArg Prod.fst h
    rfl
  | cons x xs ih =>
    obtain ⟨r, rs', rfl, -, hrs⟩ := exists_of_steps_cons h
    rw [List.length_cons, List.length_cons, ih hrs]

/-- **Memoization is transparent.**  Whatever plain steps a new parser is asked to do, none of them
gets stuck, and each has the same answer and leaves the same cursor, stage and furthest failure
with a memo table as without one. -/
theorem steps_memoize_irrelevant (s : String) (xs : List Step) (hxs : ∀ x ∈ xs, x.isPlain) :
    ∃ rs rs' : List Report, (Parser.new s true).steps xs = (rs, none) ∧
      (Parser.new s false).steps xs = (rs', none) ∧ rs.length = xs.length ∧
      rs.map Report.seen = rs'.map Report.seen := by
  obtain ⟨seen, hseen⟩ := Parser.exists_steps_seen hxs s.toList ⟨0, .empty, .ready⟩
  obtain ⟨rs, hrs, hmap⟩ := hseen _ (Parser.shows_new s true)
  obtain ⟨rs', hrs', hmap'⟩ := hseen _ (Parser.shows_new s false)
  exact ⟨rs, rs', hrs, hrs', Parser.length_of_steps hrs, hmap.trans hmap'.symm⟩

/-- The second attempt at a query is answered from the memo table, if there is one. -/
theorem steps_memoize_irrelevant_again :
    (∀ x ∈ [Step.eval (.rule .query), .moveTo 0, .eval (.rule .query), .run], x.isPlain) ∧
      ∃ rs rs' : List Report,
        (Parser.new "-booster | x" true).steps
          [.eval (.rule .query), .moveTo 0, .eval (.rule .query), .run] = (rs, none) ∧
        (Parser.new "-booster | x" false).steps
          [.eval (.rule .query), .moveTo 0, .eval (.rule .query), .run] = (rs', none) ∧
        rs.length = 4 ∧ rs.map Report.seen = rs'.map Report.seen :=
  ⟨by decide, steps_memoize_irrelevant _ _ (by decide)⟩

end TagQuery
