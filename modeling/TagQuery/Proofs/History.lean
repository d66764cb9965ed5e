import TagQuery.Proofs.Rounds
import TagQuery.Proofs.Transparency

/-!
# What a session leaves behind

`Parser.after` is the parser that the reports of some steps end with.  What every step keeps is kept
by a whole session (`Parser.exists_steps`).

Two things are said about any history of steps, hostile ones included: entries that are wrong, a
cursor beyond the end, failures that never happened.

* A run forgets it all, since a run begins with nothing but the input (`Parser.step_run_congr`).
* Only the stage of a parser is history: it tells whether there has been a run, and how the last
  one ended (`Report.Follows` for one step, `steps_forgotten` for a session).

A history is a list of steps that all come to an end.  None is left out for want of rounds: an
evaluation that gets stuck as endless would be so with any number of them
(`Parser.step_eval_endless_iff`).
-/

namespace TagQuery

variable {α : Type} {p q : Parser} {x : Step} {xs ys zs : List Step} {r : Report}
  {rs : List Report}

/-! ### Steps in a row -/

namespace Parser

/-- The parser that reports end with. -/
def after (p : Parser) : List Report → Parser
  | [] => p
  | r :: rs => r.parser.after rs

theorem after_append (p : Parser) (rs rs' : List Report) :
    p.after (rs ++ rs') = (p.after rs).after rs' := by
  induction rs generalizing p with
  | nil => rfl
  | cons r rs ih => exact ih r.parser

theorem exists_of_steps_append (h : p.steps (ys ++ zs) = (rs, none)) :
    ∃ rs₁ rs₂, rs = rs₁ ++ rs₂ ∧ p.steps ys = (rs₁, none) ∧
      (p.after rs₁).steps zs = (rs₂, none) := by
  induction ys generalizing p rs with
  | nil => exact ⟨[], rs, rfl, rfl, h⟩
  | cons y ys ih =>
    obtain ⟨r, rs', rfl, hr, hrs⟩ := exists_of_steps_cons h
    obtain ⟨rs₁, rs₂, rfl, hys, hzs⟩ := ih hrs
    exact ⟨r :: rs₁, rs₂, rfl, by simp only [steps, hr, hys], hzs⟩

/-- **What allowed steps keep is kept by a session of them**, none of which gets stuck. -/
theorem exists_steps {Inv : Parser → Prop} {allowed : Step → Prop}
    (hstep : ∀ p x, Inv p → allowed x → ∃ r, p.step x = .ok r ∧ Inv r.parser) (hp : Inv p)
    (hxs : ∀ x ∈ xs, allowed x) :
    ∃ rs, p.steps xs = (rs, none) ∧ Inv (p.after rs) := by
  induction xs generalizing p with
  | nil => exact ⟨[], rfl, hp⟩
  | cons x xs ih =>
    obtain ⟨r, hr, hinv⟩ := hstep p x hp (hxs x List.mem_cons_self)
    obtain ⟨rs, hrs, hafter⟩ := ih hinv fun y hy => hxs y (List.mem_cons_of_mem x hy)
    exact ⟨r :: rs, by simp only [steps, hr, hrs], hafter⟩

/-- **What allowed steps keep, if they come to an end, is kept by a session of them that does.** -/
theorem inv_after (Inv : Parser → Prop) (allowed : Step → Prop)
    (hstep : ∀ p x r, Inv p → allowed x → p.step x = .ok r → Inv r.parser) (hp : Inv p)
    (hxs : ∀ x ∈ xs, allowed x) (h : p.steps xs = (rs, none)) : Inv (p.after rs) := by
  induction xs generalizing p rs with
  | nil =>
    obtain rfl : [] = rs := congrArg Prod.fst h
    exact hp
  | cons x xs ih =>
    obtain ⟨r, rs', rfl, hr, hrs⟩ := exists_of_steps_cons h
    have hinv := hstep p x r hp (hxs x List.mem_cons_self) hr
    exact ih (p := r.parser) hinv (fun y hy => hxs y (List.mem_cons_of_mem x hy)) hrs

end Parser

/-! ### What a run begins with -/

theorem Parser.drive_congr (hinput : p.input = q.input) (hmemoize : p.memoize = q.memoize)
    (top : Action α) : p.drive top = q.drive top := by
  have hrestart : p.restart = q.restart := by rw [restart, restart, hinput, hmemoize]
  rw [drive, drive, hrestart]

theorem Parser.step_run_congr (hinput : p.input = q.input) (hmemoize : p.memoize = q.memoize) :
    p.step .run = q.step .run := by
  simp only [step, run, drive_congr hinput hmemoize]

theorem Parser.step_runRule_congr (hinput : p.input = q.input)
    (hmemoize : p.memoize = q.memoize) (rule : Rule) :
    p.step (.runRule rule) = q.step (.runRule rule) := by
  simp only [step, runRule, drive_congr hinput hmemoize]

/-! ### What steps leave -/

theorem Parser.drive_leaves {P : State → Prop} {top : Action α}
    (h : (top (p.restart.context 0) .initial).Leaves P) (hend : ∀ t, P t → P (expectEnd t))
    (hstuck : ∀ e, top (p.restart.context 0) .initial = .stuck e → P .initial) :
    P (p.drive top).2.state := by
  rcases h.cases with ⟨a, t, htop, ht⟩ | ⟨t, htop, ht⟩ | ⟨e, htop⟩
  · rw [drive_of_matched htop]
    split
    · exact ht
    · exact hend t ht
  · rw [drive_of_failed htop]
    exact ht
  · rw [drive_of_stuck htop]
    exact hstuck e htop

theorem Parser.parser_of_step_run (h : p.step .run = .ok r) : r.parser = p.run.2 := by
  simp only [step] at h
  split at h
  · cases h
  · next hrun =>
    obtain rfl := Except.ok.inj h
    rw [hrun]

theorem Parser.parser_of_step_runRule {rule : Rule} (h : p.step (.runRule rule) = .ok r) :
    r.parser = (p.runRule rule).2 := by
  simp only [step] at h
  split at h
  · cases h
  · next hrun =>
    obtain rfl := Except.ok.inj h
    rw [hrun]

theorem Parser.leaves_of_step_eval {P : State → Prop} {e : Expr}
    (h : p.step (.eval e) = .ok r)
    (hP : (e.eval (p.context e.moves) { p.state with calls := [] }).Leaves P) :
    P r.parser.state := by
  rcases hP.cases with ⟨v, t, he, ht⟩ | ⟨t, he, ht⟩ | ⟨fault, he⟩ <;>
    simp only [step, he, Except.ok.injEq, reduceCtorEq] at h
  · subst h
    exact ht
  · subst h
    exact ht

/-! ### What tells a run from other steps -/

/-- The step is a run. -/
def Step.isRun : Step → Bool
  | .run | .runRule _ => true
  | _ => false

/-- The answer of a run that read the whole input. -/
def Answer.Accepts (a : Answer) : Prop :=
  (∃ q, a = .query (.accepted q)) ∨ ∃ n, a = .node (.accepted n)

/-- The answer of a run that did not. -/
def Answer.Rejects (a : Answer) : Prop :=
  (∃ e, a = .query (.rejected e)) ∨ ∃ e, a = .node (.rejected e)

theorem Answer.Accepts.not_rejects {a : Answer} (h : a.Accepts) : ¬ a.Rejects := by
  rcases h with ⟨q, rfl⟩ | ⟨n, rfl⟩ <;> simp [Answer.Rejects]

/-- What the report of a step says about the parser, its state apart. -/
structure Report.Follows (r : Report) (p : Parser) (x : Step) : Prop where
  input_eq : r.parser.input = p.input
  memoize_eq : r.parser.memoize = p.memoize
  /-- No step but a run sets the stage. -/
  stage_eq : ¬ x.isRun → r.parser.stage = p.stage
  /-- A run sets the stage to what it answers. -/
  of_isRun : x.isRun → (r.answer.Accepts ∧ r.parser.stage = .accepted) ∨
    (r.answer.Rejects ∧ r.parser.stage = .rejected)

/-- How a run ends, the parser that it leaves says as well. -/
theorem Parser.drive_cases (p : Parser) (top : Action α) :
    (∃ a s, p.drive top = (.accepted a, { p with state := s, stage := .accepted })) ∨
      (∃ e s, p.drive top = (.rejected e, { p with state := s, stage := .rejected })) ∨
        ∃ fault q, p.drive top = (.stuck fault, q) := by
  cases h : top (p.restart.context 0) p.restart.state with
  | matched a s =>
    rw [drive_of_matched h]
    by_cases hstop : s.cursor = p.input.size
    · exact Or.inl ⟨a, s, if_pos hstop⟩
    · exact Or.inr (Or.inl ⟨_, _, if_neg hstop⟩)
  | failed s => exact Or.inr (Or.inl ⟨_, s, drive_of_failed h⟩)
  | stuck fault => exact Or.inr (Or.inr ⟨fault, _, drive_of_stuck h⟩)

/-- **One step of a history**: only a run sets the stage, and no step sets the input. -/
theorem Parser.follows_of_step (h : p.step x = .ok r) : r.Follows p x := by
  cases x with
  | look | moveTo n | expect n e | lookup rule n | store rule n entry =>
    obtain rfl := Except.ok.inj h
    exact ⟨rfl, rfl, fun _ => rfl, fun hx => by cases hx⟩
  | run =>
    rcases p.drive_cases Grammar.query with ⟨a, s, hd⟩ | ⟨e, s, hd⟩ | ⟨fault, q, hd⟩ <;>
      simp only [step, run, hd, Except.ok.injEq, reduceCtorEq] at h
    · subst h
      exact ⟨rfl, rfl, fun hx => absurd rfl hx, fun _ => Or.inl ⟨Or.inl ⟨a, rfl⟩, rfl⟩⟩
    · subst h
      exact ⟨rfl, rfl, fun hx => absurd rfl hx, fun _ => Or.inr ⟨Or.inl ⟨e, rfl⟩, rfl⟩⟩
  | runRule rule =>
    rcases p.drive_cases rule.action with ⟨a, s, hd⟩ | ⟨e, s, hd⟩ | ⟨fault, q, hd⟩ <;>
      simp only [step, runRule, hd, Except.ok.injEq, reduceCtorEq] at h
    · subst h
      exact ⟨rfl, rfl, fun hx => absurd rfl hx, fun _ => Or.inl ⟨Or.inr ⟨a, rfl⟩, rfl⟩⟩
    · subst h
      exact ⟨rfl, rfl, fun hx => absurd rfl hx, fun _ => Or.inr ⟨Or.inr ⟨e, rfl⟩, rfl⟩⟩
  | eval expr =>
    -- whether it matches or fails, it sets the state and nothing else
    rw [step] at h
    split at h
    · obtain rfl := Except.ok.inj h
      exact ⟨rfl, rfl, fun _ => rfl, fun hx => by cases hx⟩
    · obtain rfl := Except.ok.inj h
      exact ⟨rfl, rfl, fun _ => rfl, fun hx => by cases hx⟩
    · cases h

/-! ### What a history leaves -/

namespace Parser

theorem input_after (h : p.steps xs = (rs, none)) :
    (p.after rs).input = p.input ∧ (p.after rs).memoize = p.memoize := by
  refine inv_after (fun q => q.input = p.input ∧ q.memoize = p.memoize) (fun _ => True)
    (fun q x r hq _ hr => ?_) ⟨rfl, rfl⟩ (fun _ _ => trivial) h
  have hr := follows_of_step hr
  exact ⟨hr.input_eq.trans hq.1, hr.memoize_eq.trans hq.2⟩

theorem stage_after (h : p.steps xs = (rs, none)) (hxs : ∀ x ∈ xs, ¬ x.isRun) :
    (p.after rs).stage = p.stage :=
  inv_after (fun q => q.stage = p.stage) (fun x => ¬ x.isRun)
    (fun _ _ _ hq hx hr => ((follows_of_step hr).stage_eq hx).trans hq) rfl hxs h

/-- After the last run the stage is what that run answered. -/
theorem exists_last_run (h : p.steps (ys ++ x :: zs) = (rs, none)) (hx : x.isRun)
    (hzs : ∀ z ∈ zs, ¬ z.isRun) :
    ∃ r, rs[ys.length]? = some r ∧
      ((r.answer.Accepts ∧ (p.after rs).stage = .accepted) ∨
        (r.answer.Rejects ∧ (p.after rs).stage = .rejected)) := by
  obtain ⟨rs₁, rs₂, rfl, hys, hrest⟩ := exists_of_steps_append h
  obtain ⟨r, rs₃, rfl, hr, hrs₃⟩ := exists_of_steps_cons hrest
  have hstage : (p.after (rs₁ ++ r :: rs₃)).stage = r.parser.stage := by
    rw [after_append]
    exact stage_after hrs₃ hzs
  refine ⟨r, ?_, ?_⟩
  · rw [← length_of_steps hys, List.getElem?_append_right (Nat.le_refl _), Nat.sub_self]
    rfl
  · rw [hstage]
    exact (follows_of_step hr).of_isRun hx

end Parser

theorem Step.exists_last_run (h : ∃ x ∈ xs, x.isRun) :
    ∃ ys x zs, xs = ys ++ x :: zs ∧ x.isRun ∧ ∀ z ∈ zs, ¬ z.isRun := by
  induction xs with
  | nil =>
    obtain ⟨x, hx, -⟩ := h
    cases hx
  | cons y xs ih =>
    by_cases hxs : ∃ x ∈ xs, x.isRun
    · obtain ⟨ys, x, zs, rfl, hx, hzs⟩ := ih hxs
      exact ⟨y :: ys, x, zs, rfl, hx, hzs⟩
    · obtain ⟨x, hx, hrun⟩ := h
      rcases List.mem_cons.1 hx with rfl | hx
      · exact ⟨[], x, xs, rfl, hrun, fun z hz hzrun => hxs ⟨z, hz, hzrun⟩⟩
      · exact absurd ⟨x, hx, hrun⟩ hxs

/-- **A run forgets its history, and the stage remembers the last run.**  Whatever steps a new
parser has done, the next run, of queries or by a rule, does not get stuck and leaves the same
report as it would on a new parser: the same answer, cursor, memo table, failures and stage.  The
stage is `ready` as long as there has been no run, and from then on it tells whether the last run
accepted or rejected the input; it is never `running`.  What a history cannot go on with is an
evaluation that has a fault or never ends. -/
theorem steps_forgotten (s : String) (memoize : Bool) (xs : List Step) (rs : List Report)
    (h : (Parser.new s memoize).steps xs = (rs, none)) :
    let p := (Parser.new s memoize).after rs
    (∃ r, p.step .run = .ok r ∧ (Parser.new s memoize).step .run = .ok r) ∧
      (∀ rule, ∃ r, p.step (.runRule rule) = .ok r ∧
        (Parser.new s memoize).step (.runRule rule) = .ok r) ∧
      (p.stage = .ready ↔ ∀ x ∈ xs, ¬ x.isRun) ∧ p.stage ≠ .running ∧
      (∀ ys x zs, xs = ys ++ x :: zs → x.isRun → (∀ z ∈ zs, ¬ z.isRun) →
        ∃ r, rs[ys.length]? = some r ∧ (p.stage = .accepted ↔ r.answer.Accepts) ∧
          (p.stage = .rejected ↔ r.answer.Rejects)) ∧
      ∀ e : Expr, p.step (.eval e) = .error .endless →
        ∀ n, e.eval ⟨s.toList, memoize, n⟩ { p.state with calls := [] } = .stuck .endless := by
  intro p
  obtain ⟨hinput, hmemoize⟩ := Parser.input_after h
  have hnew := Parser.shows_new s memoize
  have hlast : ∀ ys x zs, xs = ys ++ x :: zs → x.isRun → (∀ z ∈ zs, ¬ z.isRun) →
      ∃ r, rs[ys.length]? = some r ∧ ((r.answer.Accepts ∧ p.stage = .accepted) ∨
        (r.answer.Rejects ∧ p.stage = .rejected)) := by
    rintro ys x zs rfl hx hzs
    exact Parser.exists_last_run h hx hzs
  refine ⟨?_, fun rule => ?_, ?_, ?_, fun ys x zs hxs hx hzs => ?_, fun e he n => ?_⟩
  -- a run sees nothing but the input, and on a new parser it does not get stuck
  · obtain ⟨seen, hseen⟩ := Step.exists_seen (x := .run) rfl s.toList ⟨0, .empty, .ready⟩
    obtain ⟨r, hr, -⟩ := hseen _ hnew
    exact ⟨r, (Parser.step_run_congr hinput hmemoize).trans hr, hr⟩
  · obtain ⟨seen, hseen⟩ := Step.exists_seen (x := .runRule rule) rfl s.toList ⟨0, .empty, .ready⟩
    obtain ⟨r, hr, -⟩ := hseen _ hnew
    exact ⟨r, (Parser.step_runRule_congr hinput hmemoize rule).trans hr, hr⟩
  -- the stage has been left alone, or the last run has set it
  · refine ⟨fun hstage x hx hrun => ?_, fun hxs => Parser.stage_after h hxs⟩
    obtain ⟨ys, x, zs, hsplit, hx, hzs⟩ := Step.exists_last_run ⟨x, hx, hrun⟩
    obtain ⟨r, -, ⟨-, hstage'⟩ | ⟨-, hstage'⟩⟩ := hlast ys x zs hsplit hx hzs
    · cases hstage.symm.trans hstage'
    · cases hstage.symm.trans hstage'
  · intro hstage
    by_cases hxs : ∃ x ∈ xs, x.isRun
    · obtain ⟨ys, x, zs, hsplit, hx, hzs⟩ := Step.exists_last_run hxs
      obtain ⟨r, -, ⟨-, hstage'⟩ | ⟨-, hstage'⟩⟩ := hlast ys x zs hsplit hx hzs
      · cases hstage.symm.trans hstage'
      · cases hstage.symm.trans hstage'
    · have hready := Parser.stage_after h fun x hx hrun => hxs ⟨x, hx, hrun⟩
      cases hstage.symm.trans hready
  · obtain ⟨r, hr, ⟨hanswer, hstage⟩ | ⟨hanswer, hstage⟩⟩ := hlast ys x zs hxs hx hzs
    · refine ⟨r, hr, iff_of_true hstage hanswer, iff_of_false ?_ hanswer.not_rejects⟩
      simp [hstage]
    · refine ⟨r, hr, iff_of_false ?_ fun hacc => hacc.not_rejects hanswer,
        iff_of_true hstage hanswer⟩
      simp [hstage]
  · have hendless := Parser.step_eval_endless_iff.1 he n
    rwa [hinput, hmemoize] at hendless

/-- A history with a wrong entry for the query, a cursor far beyond the end and a failure that never
happened: the entry is believed, and the run after it knows nothing of it. -/
theorem steps_forgotten_hostile :
    let xs : List Step := [.store .query 0 ⟨some (.negation (.ofLength 0 1)), 40⟩,
      .moveTo 99, .expect 50 .endOfInput, .lookup .query 0, .moveTo 0, .eval (.rule .query)]
    let rs := ((Parser.new "-booster" true).steps xs).1
    let p := (Parser.new "-booster" true).after rs
    (Parser.new "-booster" true).steps xs = (rs, none) ∧ p.state.cursor = 40 ∧
      (∃ r, p.step .run = .ok r ∧ (Parser.new "-booster" true).step .run = .ok r) ∧
        p.stage = .ready := by
  intro xs rs p
  have hnone : ((Parser.new "-booster" true).steps xs).2 = none := by decide +kernel
  have hsteps : (Parser.new "-booster" true).steps xs = (rs, none) := Prod.ext rfl hnone
  have key := steps_forgotten "-booster" true xs rs hsteps
  exact ⟨hsteps, by decide +kernel, key.1, key.2.2.1.2 (by decide)⟩

end TagQuery
