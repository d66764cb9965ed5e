import Mathlib.Data.List.Chain
import TagQuery.Packrat.Combinators

/-!
# Repetitions, round by round

In every round of a repetition but the last one the action matches and moves the cursor
(`Action.Passes`).  In the last one it fails, matches in place or gets stuck, and that is how the
repetition ends (`Action.Ends`).  The two determine what the repetition comes to
(`Action.Passes.manyUpTo_eq`), and it comes to nothing else (`Action.exists_passes`).

Nothing here makes the rounds come to an end.  If matches lead the cursor forward and not beyond a
bound (`Action.MovesForward`), each round but the last one uses up an offset before the bound, so
there are no more rounds than that (`repetition_bounded`).
-/

namespace TagQuery

variable {α β : Type} {x : Action α} {c : Context} {s t u : State} {rounds : List (α × State)}
  {as bs : List α} {reply : Reply (List α)} {bound limit : Nat}

namespace Action

/-- From `s` the action matches in some rounds, each of which moves the cursor, and leaves `u`.  Of
each round the list has the value and the state that it left. -/
inductive Passes (x : Action α) (c : Context) : State → List (α × State) → State → Prop where
  | nil (s : State) : Passes x c s [] s
  | cons {s t u : State} {a : α} {rounds : List (α × State)} (hx : x c s = .matched a t)
    (hne : t.cursor ≠ s.cursor) (h : Passes x c t rounds u) : Passes x c s ((a, t) :: rounds) u

/-- What a repetition comes to if its last round begins at `s`, after rounds with the values `as`: a
round that fails is undone, and one that matches in place is kept. -/
inductive Ends (x : Action α) (c : Context) (as : List α) (s : State) : Reply (List α) → Prop where
  | failed {t : State} (hx : x c s = .failed t) : Ends x c as s (.matched as (t.moveTo s.cursor))
  | still {a : α} {t : State} (hx : x c s = .matched a t) (hstill : t.cursor = s.cursor) :
    Ends x c as s (.matched (as ++ [a]) t)
  | stuck {e : Fault} (hx : x c s = .stuck e) : Ends x c as s (.stuck e)

theorem Ends.cons (h : x.Ends c as s reply) (a : α) :
    x.Ends c (a :: as) s (reply.map (a :: ·)) := by
  cases h with
  | failed hx => exact .failed hx
  | still hx hstill => exact .still hx hstill
  | stuck hx => exact .stuck hx

/-! ### What a repetition comes to -/

theorem Passes.manyUpTo_add (h : x.Passes c s rounds u) (limit : Nat) :
    manyUpTo x (limit + rounds.length) c s =
      (manyUpTo x limit c u).map (rounds.map Prod.fst ++ ·) := by
  induction h with
  | nil s => exact (Reply.map_id _).symm
  | cons hx hne _ ih =>
    rw [List.length_cons, ← Nat.add_assoc, manyUpTo_succ_apply, hx]
    simp only [if_neg hne]
    rw [ih, Reply.map_map]
    rfl

theorem Ends.map_manyUpTo (h : x.Ends c as s reply) (limit : Nat) :
    (manyUpTo x (limit + 1) c s).map (as ++ ·) = reply := by
  rw [manyUpTo_succ_apply]
  cases h with
  | failed hx => simp only [hx, Reply.map_matched, List.append_nil]
  | still hx hstill => simp only [hx, hstill, ↓reduceIte, Reply.map_matched]
  | stuck hx => simp only [hx, Reply.map_stuck]

/-- **What a repetition comes to**, for every limit that leaves it its rounds. -/
theorem Passes.manyUpTo_eq (h : x.Passes c s rounds u)
    (hend : x.Ends c (rounds.map Prod.fst) u reply) (hl : rounds.length < limit) :
    manyUpTo x limit c s = reply := by
  obtain ⟨k, rfl⟩ : ∃ k, limit = k + 1 + rounds.length := ⟨limit - 1 - rounds.length, by omega⟩
  rw [h.manyUpTo_add, hend.map_manyUpTo]

/-- **A repetition that is not endless is some rounds and a last one.** -/
theorem exists_passes (h : manyUpTo x limit c s ≠ .stuck .endless) :
    ∃ rounds u, x.Passes c s rounds u ∧
      x.Ends c (rounds.map Prod.fst) u (manyUpTo x limit c s) := by
  induction limit generalizing s with
  | zero => exact absurd rfl h
  | succ limit ih =>
    rw [manyUpTo_succ_apply] at h ⊢
    cases hx : x c s with
    | failed t => exact ⟨[], s, .nil s, .failed hx⟩
    | stuck e => exact ⟨[], s, .nil s, .stuck hx⟩
    | matched a t =>
      simp only [hx] at h ⊢
      by_cases hne : t.cursor = s.cursor
      · rw [if_pos hne]
        exact ⟨[], s, .nil s, .still hx hne⟩
      · -- if the rest were endless, so would be the whole
        rw [if_neg hne] at h ⊢
        obtain ⟨rounds, u, hpass, hend⟩ := ih fun he => h (by rw [he]; rfl)
        exact ⟨(a, t) :: rounds, u, .cons hx hne hpass, hend.cons a⟩

theorem Passes.eq_getLastD (h : x.Passes c s rounds u) :
    u = (rounds.map Prod.snd).getLastD s := by
  induction h with
  | nil s => rfl
  | cons _ _ _ ih => rw [List.map_cons, List.getLastD_cons, ← ih]

theorem Ends.cursor_eq (h : x.Ends c as s (.matched bs t)) : t.cursor = s.cursor := by
  cases h with
  | failed hx => rfl
  | still hx hstill => exact hstill

theorem Ends.length_le (h : x.Ends c as s (.matched bs t)) : bs.length ≤ as.length + 1 := by
  cases h with
  | failed hx => exact Nat.le_succ _
  | still hx hstill => exact Nat.le_of_eq List.length_append

/-! ### Actions that move forward -/

/-- Each match leads the cursor forward or nowhere, and not beyond the bound. -/
def MovesForward (x : Action α) (c : Context) (bound : Nat) : Prop :=
  ∀ s a t, s.cursor ≤ bound → x c s = .matched a t → s.cursor ≤ t.cursor ∧ t.cursor ≤ bound

namespace MovesForward

theorem terminal (rule : Rule) (token : Token) (text : Text) (accepts : Text → Bool) :
    (terminal rule token text accepts).MovesForward c c.input.size := by
  intro s a t _ h
  unfold Action.terminal at h
  split at h
  · rename_i hany
    obtain ⟨w, hw, -⟩ := (Option.any_eq_true ..).1 hany
    cases h
    exact ⟨Nat.le_add_right .., (Text.exists_slice?_iff.1 ⟨w, hw⟩).2.2.le_size⟩
  · cases h

theorem literal (rule : Rule) (text : String) :
    (literal rule text).MovesForward c c.input.size :=
  terminal rule (.literal text) text.toList _

theorem bind {f : α → Action β} (hx : x.MovesForward c bound)
    (hf : ∀ a, (f a).MovesForward c bound) : (x >>= f).MovesForward c bound := by
  intro s b u hs h
  rw [bind_apply] at h
  cases hxs : x c s with
  | matched a t =>
    rw [hxs] at h
    obtain ⟨hst, ht⟩ := hx s a t hs hxs
    obtain ⟨htu, hu⟩ := hf a t b u ht h
    exact ⟨Nat.le_trans hst htu, hu⟩
  | failed t | stuck e =>
    rw [hxs] at h
    cases h

/-- **A repetition comes to an end**: each round that moves the cursor leaves fewer offsets before
the bound. -/
theorem exists_rounds (hx : x.MovesForward c bound) (hs : s.cursor ≤ bound) :
    ∃ rounds u reply, x.Passes c s rounds u ∧ x.Ends c (rounds.map Prod.fst) u reply := by
  induction hd : bound - s.cursor using Nat.strongRecOn generalizing s with
  | ind d ih =>
    cases hxs : x c s with
    | failed t => exact ⟨[], s, _, .nil s, .failed hxs⟩
    | stuck e => exact ⟨[], s, _, .nil s, .stuck hxs⟩
    | matched a t =>
      by_cases hne : t.cursor = s.cursor
      · exact ⟨[], s, _, .nil s, .still hxs hne⟩
      · -- the cursor has moved, and not back, so that the rest has fewer offsets before it
        obtain ⟨hst, ht⟩ := hx s a t hs hxs
        obtain ⟨rounds, u, reply, hpass, hend⟩ := ih (bound - t.cursor) (by omega) ht rfl
        exact ⟨(a, t) :: rounds, u, _, .cons hxs hne hpass, hend.cons a⟩

theorem length_le (hx : x.MovesForward c bound) (h : x.Passes c s rounds u)
    (hs : s.cursor ≤ bound) : rounds.length ≤ bound - s.cursor := by
  induction h with
  | nil s => exact Nat.zero_le _
  | @cons s t u a rounds hxs hne _ ih =>
    obtain ⟨hst, ht⟩ := hx s a t hs hxs
    have := ih ht
    rw [List.length_cons]
    omega

theorem isChain (hx : x.MovesForward c bound) (h : x.Passes c s rounds u) (hs : s.cursor ≤ bound) :
    (s.cursor :: rounds.map fun r => r.2.cursor).IsChain (· < ·) := by
  induction h with
  | nil s => exact .singleton _
  | @cons s t u a rounds hxs hne _ ih =>
    obtain ⟨hst, ht⟩ := hx s a t hs hxs
    exact .cons_cons (Nat.lt_of_le_of_ne hst (Ne.symm hne)) (ih ht)

end MovesForward

end Action

/-- **A repetition of an action that moves forward ends, and keeps exactly what matched.**  Let each
match of the action lead the cursor forward or nowhere, and not beyond a bound.  Then some rounds
match and move the cursor, each further on than the one before, and there are no more of them than
offsets before the bound; and a last round fails, matches in place or gets stuck.  With rounds
enough for these, the repetition comes to that end, and only a round that gets stuck makes it get
stuck.  If it matches, its values are those of the rounds that match, in their order, and the cursor
is where the last of these left it, or at the start if there is none, wherever a failing round moved
it. -/
theorem repetition_bounded {x : Action α} {c : Context} {bound : Nat}
    (hx : x.MovesForward c bound) {s : State} (hs : s.cursor ≤ bound) :
    ∃ rounds u reply, x.Passes c s rounds u ∧ x.Ends c (rounds.map Prod.fst) u reply ∧
      (∀ limit, bound - s.cursor < limit → Action.manyUpTo x limit c s = reply) ∧
      (bound - s.cursor < c.rounds → Action.many x c s = reply) ∧
      (∀ e, reply = .stuck e → x c u = .stuck e) ∧
      (s.cursor :: rounds.map fun r => r.2.cursor).IsChain (· < ·) ∧
      rounds.length ≤ bound - s.cursor ∧
      u = (rounds.map Prod.snd).getLastD s ∧
      ∀ as t, reply = .matched as t →
        as.length ≤ bound - s.cursor + 1 ∧ t.cursor = u.cursor := by
  obtain ⟨rounds, u, reply, hpass, hend⟩ := hx.exists_rounds hs
  have hlen := hx.length_le hpass hs
  have hmany : ∀ limit, bound - s.cursor < limit → Action.manyUpTo x limit c s = reply :=
    fun limit hl => hpass.manyUpTo_eq hend (Nat.lt_of_le_of_lt hlen hl)
  refine ⟨rounds, u, reply, hpass, hend, hmany, hmany c.rounds, ?_, hx.isChain hpass hs, hlen,
    hpass.eq_getLastD, ?_⟩
  · rintro e rfl
    cases hend with
    | stuck hu => exact hu
  · rintro as t rfl
    have := hend.length_le
    rw [List.length_map] at this
    exact ⟨by omega, hend.cursor_eq⟩

/-- Bars, each after a space.  There are two of them, and the space that the last round reads before
it fails is not kept. -/
theorem repetition_bounded_bars :
    let x := do
      let _ ← Action.literal .query " "
      Action.literal .binaryOp "|"
    let c : Context := ⟨" | | x".toList, true, 7⟩
    x.MovesForward c 6 ∧ State.initial.cursor ≤ 6 ∧
      (∃ rounds u as t, x.Passes c .initial rounds u ∧ u.cursor = 4 ∧
        Action.many x c .initial = .matched as t ∧ as.length = 2 ∧ t.cursor = 4) ∧
      ∃ v, x c (State.initial.moveTo 4) = .failed v ∧ v.cursor = 5 := by
  intro x c
  have hx : x.MovesForward c 6 :=
    Action.MovesForward.bind (Action.MovesForward.literal .query " ") fun _ =>
      Action.MovesForward.literal .binaryOp "|"
  have hs : State.initial.cursor ≤ 6 := Nat.zero_le 6
  obtain ⟨rounds, u, reply, hpass, -, -, hmany, -, -, -, -, hvals⟩ := repetition_bounded hx hs
  obtain ⟨as, t, heval, hlen, hcursor⟩ :
      ∃ as t, Action.many x c .initial = .matched as t ∧ as.length = 2 ∧ t.cursor = 4 :=
    ⟨_, _, rfl, rfl, rfl⟩
  obtain ⟨-, hu⟩ := hvals as t ((hmany (by decide)).symm.trans heval)
  exact ⟨hx, hs, ⟨rounds, u, as, t, hpass, hu.symm.trans hcursor, heval, hlen, hcursor⟩,
    _, rfl, rfl⟩

end TagQuery
