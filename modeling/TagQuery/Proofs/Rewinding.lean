import TagQuery.Proofs.Repetition
import TagQuery.Proofs.Safety

/-!
# Laws of the rewinding combinators

Choices, repetitions and options undo an attempt that failed, and so do sequences.  All they see of
an action is what the sequence of it does (`Action.choice_congr`, `Action.many_congr`,
`Action.optional_congr`), so a sequence around an operand makes no difference.  A choice within a
choice makes none either, because both start their alternatives at the same place
(`Action.choice_append_cons_choice`).

These laws hold of all actions and in all states.  That a repetition comes to the same as its
unrolling does not, since one that runs in circles uses up its rounds.  It holds where the cursor
only moves forward (`Action.many_apply_of_advances`): there the rounds left are always enough.

What an attempt that failed leaves behind is all that it did, except that the cursor is back where
the attempt began.
-/

namespace TagQuery

variable {α : Type} {x y : Action α} {xs ys : List (Action α)} {c : Context} {s t u : State}

namespace Action

/-! ### Sequences within combinators -/

/-- There is nothing left to rewind. -/
@[simp] theorem sequence_sequence (x : Action α) : sequence (sequence x) = sequence x := by
  funext c s
  rw [sequence_apply, sequence_apply]
  cases x c s <;> rfl

theorem choice_cons_apply_sequence (x : Action α) (xs : List (Action α)) (c : Context)
    (s : State) :
    choice (x :: xs) c s =
      match sequence x c s with
      | .matched a t => .matched a t
      | .failed t => choice xs c t
      | .stuck e => .stuck e := by
  rw [choice_cons_apply, sequence_apply]
  cases x c s <;> rfl

theorem manyUpTo_succ_apply_sequence (x : Action α) (n : Nat) (c : Context) (s : State) :
    manyUpTo x (n + 1) c s =
      match sequence x c s with
      | .matched a t =>
        if t.cursor = s.cursor then .matched [a] t else (manyUpTo x n c t).map (a :: ·)
      | .failed t => .matched [] t
      | .stuck e => .stuck e := by
  rw [manyUpTo_succ_apply, sequence_apply]
  cases x c s <;> rfl

theorem choice_congr (h : List.Forall₂ (fun x y => sequence x = sequence y) xs ys) :
    choice xs = choice ys := by
  induction h with
  | nil => rfl
  | cons hxy _ ih =>
    funext c s
    rw [choice_cons_apply_sequence, choice_cons_apply_sequence, hxy, ih]

theorem manyUpTo_congr (h : sequence x = sequence y) (n : Nat) : manyUpTo x n = manyUpTo y n := by
  induction n with
  | zero => rfl
  | succ n ih =>
    funext c s
    rw [manyUpTo_succ_apply_sequence, manyUpTo_succ_apply_sequence, h, ih]

theorem many_congr (h : sequence x = sequence y) : many x = many y := by
  funext c s
  rw [many, many, manyUpTo_congr h]

theorem optional_congr (h : sequence x = sequence y) : optional x = optional y := by
  funext c s
  rw [optional_apply, optional_apply, h]

/-! ### Attempts that failed -/

theorem exists_of_sequence_failed (h : sequence x c s = .failed u) :
    ∃ t, x c s = .failed t ∧ u = t.moveTo s.cursor := by
  rw [sequence_apply] at h
  cases hx : x c s with
  | failed t =>
    rw [hx] at h
    cases h
    exact ⟨t, rfl, rfl⟩
  | matched a t | stuck e =>
    rw [hx] at h
    cases h

theorem exists_of_optional_none (h : optional x c s = .matched none u) :
    ∃ t, x c s = .failed t ∧ u = t.moveTo s.cursor := by
  rw [optional_apply] at h
  cases hx : sequence x c s with
  | failed t =>
    rw [hx] at h
    cases h
    exact exists_of_sequence_failed hx
  | matched a t | stuck e =>
    rw [hx] at h
    cases h

theorem exists_of_choice_cons_failed (h : choice (x :: xs) c s = .failed u) :
    ∃ t, x c s = .failed t ∧ choice xs c (t.moveTo s.cursor) = .failed u := by
  rw [choice_cons_apply] at h
  cases hx : x c s with
  | failed t =>
    rw [hx] at h
    exact ⟨t, rfl, h⟩
  | matched a t | stuck e =>
    rw [hx] at h
    cases h

theorem cursor_of_choice_failed (h : choice xs c s = .failed u) : u.cursor = s.cursor := by
  induction xs generalizing s with
  | nil =>
    cases h
    rfl
  | cons x xs ih =>
    obtain ⟨t, -, hxs⟩ := exists_of_choice_cons_failed h
    exact (ih hxs).trans (State.cursor_moveTo ..)

/-! ### Choices within choices -/

theorem choice_append_apply (xs ys : List (Action α)) (c : Context) (s : State) :
    choice (xs ++ ys) c s =
      match choice xs c s with
      | .matched a t => .matched a t
      | .failed t => choice ys c t
      | .stuck e => .stuck e := by
  induction xs generalizing s with
  | nil => rfl
  | cons x xs ih =>
    rw [List.cons_append, choice_cons_apply, choice_cons_apply]
    cases x c s with
    | failed t => exact ih (t.moveTo s.cursor)
    | matched a t | stuck e => rfl

/-- A choice that fails has rewound, so a sequence around it does nothing. -/
@[simp] theorem sequence_choice (xs : List (Action α)) : sequence (choice xs) = choice xs := by
  funext c s
  rw [sequence_apply]
  cases h : choice xs c s with
  | failed t =>
    dsimp only
    rw [← cursor_of_choice_failed h, State.moveTo_cursor]
  | matched a t | stuck e => rfl

/-- **Choices can be flattened.** -/
theorem choice_append_cons_choice (xs ys zs : List (Action α)) :
    choice (xs ++ choice ys :: zs) = choice (xs ++ ys ++ zs) := by
  funext c s
  rw [List.append_assoc, choice_append_apply, choice_append_apply]
  cases choice xs c s with
  | failed t =>
    dsimp only
    rw [choice_cons_apply_sequence, sequence_choice, choice_append_apply]
  | matched a t | stuck e => rfl

/-- The last alternative fails after the others have failed, and starts where they started. -/
theorem exists_of_choice_concat_failed (h : choice (xs ++ [x]) c s = .failed u) :
    ∃ t v, choice xs c s = .failed t ∧ t.cursor = s.cursor ∧ x c t = .failed v ∧
      u = v.moveTo s.cursor := by
  rw [choice_append_apply] at h
  cases hxs : choice xs c s with
  | failed t =>
    rw [hxs] at h
    have ht := cursor_of_choice_failed hxs
    obtain ⟨v, hx, hu⟩ := exists_of_choice_cons_failed h
    cases hu
    exact ⟨t, v, rfl, ht, hx, by rw [ht]⟩
  | matched a t | stuck e =>
    rw [hxs] at h
    cases h

/-! ### Repetitions where the cursor only moves forward -/

theorem manyUpTo_ne_failed (n : Nat) : manyUpTo x n c s ≠ .failed u := by
  intro h
  obtain ⟨rounds, v, -, hend⟩ := exists_passes (show manyUpTo x n c s ≠ .stuck .endless by simp [h])
  rw [h] at hend
  cases hend

section Forward

variable {input : Text} {fits : Nat → α → Nat → Prop}

theorem exists_many_of_advances (h : ∀ n, x.Advances input n (fits n)) (hc : c.input = input)
    (hr : input.size < c.rounds) (hs : s.Forward input) : ∃ as t, many x c s = .matched as t := by
  rcases Advances.many h c s hc hr rfl hs with ⟨as, t, ht, -⟩ | ⟨t, ht, -⟩
  · exact ⟨as, t, ht⟩
  · exact absurd ht (manyUpTo_ne_failed _)

/-- **A repetition and its unrolling.**  The rounds that are left after the first one are as good as
all of them, because there are fewer bytes before the cursor. -/
theorem many_apply_of_advances (h : ∀ n, x.Advances input n (fits n)) (hc : c.input = input)
    (hr : input.size < c.rounds) (hs : s.Forward input) :
    many x c s =
      match x c s with
      | .matched a t =>
        if t.cursor = s.cursor then .matched [a] t else (many x c t).map (a :: ·)
      | .failed t => .matched [] (t.moveTo s.cursor)
      | .stuck e => .stuck e := by
  -- one round is taken from those there are, on the left side only
  obtain ⟨limit, hlimit⟩ : ∃ limit, c.rounds = limit + 1 := ⟨c.rounds - 1, by omega⟩
  rw [many, hlimit, manyUpTo_succ_apply]
  cases hx : x c s with
  | failed t | stuck e => rfl
  | matched a t =>
    by_cases hstill : t.cursor = s.cursor
    · simp only [if_pos hstill]
    · simp only [if_neg hstill]
      -- the cursor has moved, so one round less is still enough for the bytes before it
      obtain ⟨b, v, hv, ht, -⟩ | ⟨v, hv, -⟩ := h s.cursor c s hc hr rfl hs
      · obtain ⟨rfl, rfl⟩ := Reply.matched.inj (hx.symm.trans hv)
        have hle := ht.reaches.le
        have hsize := ht.reaches.le_size hstill
        have hlt : input.size - t.cursor < limit := by omega
        have hrest : manyUpTo x limit c t ≠ .stuck .endless := by
          rcases Advances.manyUpTo h hlt c t hc hr rfl ht.forward with
            ⟨as, w, hw, -⟩ | ⟨w, hw, -⟩ <;> simp [hw]
        rw [many, hlimit, manyUpTo_of_le hrest (Nat.le_succ limit)]
      · cases hx.symm.trans hv

end Forward

end Action

/-- **The laws of the rewinding combinators.**

* A choice within a choice can be flattened, and sequences around any of the operands of a choice,
  a repetition, an option or another sequence can be left out.  The two sides of each law are the
  same action: from any state they come to the same reply and leave the same state, with the cursor,
  the memo table and its counters, the record of failures and the calls.
* A sequence or a choice that fails, and an option or a repetition whose last attempt failed, leave
  the state of that attempt, but for the cursor, which is where the attempt began.
* Whatever a new parser has been asked to do, fillings of its memo table by hand and moves within
  expressions apart, a repetition of an expression comes to the same as its unrolling: nothing if
  the expression fails, what it matches with if it matches in place, and otherwise that and the
  repetition from there on. -/
theorem rewinding_laws (input : String) (memoize : Bool) (steps : List Step)
    (hsteps : ∀ x ∈ steps, x.isForward) :
    (∀ xs ys zs : List (Action α),
      Action.choice (xs ++ Action.choice ys :: zs) = Action.choice (xs ++ ys ++ zs)) ∧
    (∀ xs ys : List (Action α), List.Forall₂ (fun x y => x = y ∨ x = Action.sequence y) xs ys →
      Action.choice xs = Action.choice ys) ∧
    (∀ x : Action α, Action.many (Action.sequence x) = Action.many x ∧
      Action.optional (Action.sequence x) = Action.optional x ∧
      Action.sequence (Action.sequence x) = Action.sequence x) ∧
    (∀ (x : Action α) (xs : List (Action α)) (c : Context) (s u : State),
      (Action.sequence x c s = .failed u → ∃ t, x c s = .failed t ∧ u = t.moveTo s.cursor) ∧
      (Action.choice xs c s = .failed u → u.cursor = s.cursor) ∧
      (Action.choice (xs ++ [x]) c s = .failed u →
        ∃ t v, Action.choice xs c s = .failed t ∧ t.cursor = s.cursor ∧ x c t = .failed v ∧
          u = v.moveTo s.cursor) ∧
      (Action.optional x c s = .matched none u →
        ∃ t, x c s = .failed t ∧ u = t.moveTo s.cursor) ∧
      (∀ as, Action.many x c s = .matched as u →
        ∃ rounds v, x.Passes c s rounds v ∧ x.Ends c (rounds.map Prod.fst) v (.matched as u))) ∧
    ∃ rs, (Parser.new input memoize).steps steps = (rs, none) ∧
      ∀ e : Expr, e.moves = 0 → ∀ (k : Nat) (calls : List Call),
        let p := (Parser.new input memoize).after rs
        let c := p.context k
        let s := { p.state with calls }
        (∃ as t, Action.many e.eval c s = .matched as t) ∧
          Action.many e.eval c s =
            match e.eval c s with
            | .matched a t =>
              if t.cursor = s.cursor then .matched [a] t
              else (Action.many e.eval c t).map (a :: ·)
            | .failed t => .matched [] (t.moveTo s.cursor)
            | .stuck e => .stuck e := by
  obtain ⟨rs, hrs, hforward⟩ :=
    Parser.exists_steps Parser.forward_step (Parser.forward_new input memoize) hsteps
  refine ⟨Action.choice_append_cons_choice, fun xs ys h => ?_, fun x => ⟨?_, ?_, ?_⟩,
    fun x xs c s u => ⟨Action.exists_of_sequence_failed, Action.cursor_of_choice_failed,
      Action.exists_of_choice_concat_failed, Action.exists_of_optional_none, fun as h => ?_⟩,
    rs, hrs, fun e he k calls => ?_⟩
  · refine Action.choice_congr (h.imp ?_)
    rintro x y (rfl | rfl)
    · rfl
    · exact Action.sequence_sequence y
  · exact Action.many_congr (Action.sequence_sequence x)
  · exact Action.optional_congr (Action.sequence_sequence x)
  · exact Action.sequence_sequence x
  · rw [← h]
    exact Action.exists_passes (show Action.many x c s ≠ .stuck .endless by simp [h])
  · intro p c s
    have hadv := e.advances p.input he
    have hs : s.Forward p.input := hforward.calls calls
    refine ⟨Action.exists_many_of_advances hadv rfl (p.size_lt_rounds k) hs, ?_⟩
    rw [Action.many_apply_of_advances (c := c) hadv rfl (p.size_lt_rounds k) hs]
    cases e.eval c s <;> rfl

/-- After a run over a negated tag with a rest, a repetition of negated tags reads the one that is
there.  The second attempt reads the sign of the rest before it fails, and this is undone. -/
theorem rewinding_laws_rest :
    let steps : List Step := [.run, .moveTo 0]
    let e : Expr := .chain [.rule .negation, .rule .tag]
    (∀ x ∈ steps, x.isForward) ∧ e.moves = 0 ∧
      ∃ rs, (Parser.new "-booster-x" true).steps steps = (rs, none) ∧
        let p := (Parser.new "-booster-x" true).after rs
        ∃ as t, Action.many e.eval (p.context 0) p.state = .matched as t ∧
          as.length = 1 ∧ t.cursor = 8 := by
  intro steps e
  have hsteps : ∀ x ∈ steps, x.isForward := by decide
  obtain ⟨-, -, -, -, rs, hrs, hmany⟩ :=
    rewinding_laws (α := Value) "-booster-x" true steps hsteps
  refine ⟨hsteps, rfl, rs, hrs, ?_⟩
  intro p
  obtain ⟨⟨as, t, heval⟩, -⟩ := hmany e rfl 0 p.state.calls
  refine ⟨as, t, heval, ?_⟩
  let check : Reply (List Value) → Bool
    | .matched as t => as.length = 1 ∧ t.cursor = 8
    | _ => false
  have hcheck :
      let p := (Parser.new "-booster-x" true).after ((Parser.new "-booster-x" true).steps steps).1
      check (Action.many e.eval (p.context 0) p.state) := by
    decide +kernel
  rw [hrs] at hcheck
  exact of_decide_eq_true ((congrArg check heval).symm.trans hcheck)

end TagQuery
