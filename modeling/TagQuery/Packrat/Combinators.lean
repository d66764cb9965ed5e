import TagQuery.Packrat.Action

/-!
# Combinators

Sequence, ordered choice, repetition, option and memoization of parsing actions.

* `sequence` makes an action rewind when it fails;
* `choice` takes the first alternative that matches, `many` repeats until an action fails or does
  not move, `optional` never fails; all three rewind after an attempt that failed;
* `memoized` answers from the memo table where it can, and otherwise stores the outcome.

`many` takes its bound on the number of rounds from the context and gets stuck beyond it;
`manyUpTo` has the bound as an argument.
-/

namespace TagQuery

namespace Action

variable {α β : Type}

/-- Run the action as one unit: if it fails, the cursor goes back to where it was. -/
def sequence (x : Action α) : Action α := fun c s =>
  match x c s with
  | .matched a t => .matched a t
  | .failed t => .failed (t.moveTo s.cursor)
  | .stuck e => .stuck e

/-- The actions one after the other.  The first failure ends them, with the cursor left where it
is. -/
def chain : List (Action α) → Action (List α)
  | [] => pure []
  | x :: xs => do
    let a ← x
    let as ← chain xs
    return a :: as

/-- The first alternative that matches; each of them starts at the same place. -/
def choice : List (Action α) → Action α
  | [] => fail
  | x :: xs => fun c s =>
    match x c s with
    | .matched a t => .matched a t
    | .failed t => choice xs c (t.moveTo s.cursor)
    | .stuck e => .stuck e

/-- Repeat an action until it fails, for at most `limit` rounds.  A round that matches without
moving the cursor is kept and is the last one; a round that fails is undone. -/
def manyUpTo (x : Action α) : Nat → Action (List α)
  | 0 => fun _ _ => .stuck .endless
  | limit + 1 => fun c s =>
    match x c s with
    | .matched a t =>
      if t.cursor = s.cursor then .matched [a] t else (manyUpTo x limit c t).map (a :: ·)
    | .failed t => .matched [] (t.moveTo s.cursor)
    | .stuck e => .stuck e

/-- Repeat an action until it fails or matches without moving the cursor. -/
def many (x : Action α) : Action (List α) := fun c s => manyUpTo x c.rounds c s

/-- The value of an action, or none if it fails; then the cursor goes back to where it was. -/
def optional (x : Action α) : Action (Option α) := fun c s =>
  match x c s with
  | .matched a t => .matched (some a) t
  | .failed t => .matched none (t.moveTo s.cursor)
  | .stuck e => .stuck e

/-- The outcome that an entry stands for: the cursor goes to its end, and a result of another type
counts as a failure. -/
def replay [Fragment α] (entry : Entry) : Action α := do
  moveTo entry.stop
  ofOption (entry.result.bind Fragment.ofNode?)

/-- Answer for `rule` from the memo table; if it has no entry at the cursor, run the action and
store its outcome, a failure as well as a match. -/
def memoized [Fragment α] (rule : Rule) (x : Action α) : Action α := fun c s =>
  match s.lookup c.memoize rule s.cursor with
  | (some entry, t) => replay entry c t
  | (none, t) =>
    match x c t with
    | .matched a u =>
      .matched a (u.store c.memoize rule s.cursor ⟨some (Fragment.toNode a), u.cursor⟩)
    | .failed u => .failed (u.store c.memoize rule s.cursor ⟨none, u.cursor⟩)
    | .stuck e => .stuck e

/-! ### One step of each combinator -/

theorem sequence_apply (x : Action α) (c : Context) (s : State) :
    sequence x c s =
      match x c s with
      | .matched a t => .matched a t
      | .failed t => .failed (t.moveTo s.cursor)
      | .stuck e => .stuck e := rfl

@[simp] theorem chain_nil : chain ([] : List (Action α)) = pure [] := rfl

@[simp] theorem choice_nil : choice ([] : List (Action α)) = fail := rfl

theorem choice_cons_apply (x : Action α) (xs : List (Action α)) (c : Context) (s : State) :
    choice (x :: xs) c s =
      match x c s with
      | .matched a t => .matched a t
      | .failed t => choice xs c (t.moveTo s.cursor)
      | .stuck e => .stuck e := rfl

/-- An option is a sequence whose failure is a match with nothing. -/
theorem optional_apply (x : Action α) (c : Context) (s : State) :
    optional x c s =
      match sequence x c s with
      | .matched a t => .matched (some a) t
      | .failed t => .matched none t
      | .stuck e => .stuck e := by
  unfold optional sequence
  cases x c s <;> rfl

theorem manyUpTo_succ_apply (x : Action α) (n : Nat) (c : Context) (s : State) :
    manyUpTo x (n + 1) c s =
      match x c s with
      | .matched a t =>
        if t.cursor = s.cursor then .matched [a] t else (manyUpTo x n c t).map (a :: ·)
      | .failed t => .matched [] (t.moveTo s.cursor)
      | .stuck e => .stuck e := rfl

theorem replay_apply [Fragment α] (entry : Entry) (c : Context) (s : State) :
    (replay entry : Action α) c s =
      match entry.result.bind Fragment.ofNode? with
      | some a => .matched a (s.moveTo entry.stop)
      | none => .failed (s.moveTo entry.stop) := by
  unfold replay
  cases entry.result.bind (Fragment.ofNode? (α := α)) <;> rfl

/-- An answer of the memo table is replayed, whatever the action is. -/
theorem memoized_of_lookup_some [Fragment α] {rule : Rule} {x : Action α} {c : Context} {s : State}
    {entry : Entry} (h : (s.lookup c.memoize rule s.cursor).1 = some entry) :
    memoized rule x c s = replay entry c (s.lookup c.memoize rule s.cursor).2 := by
  have hl : s.lookup c.memoize rule s.cursor =
      (some entry, (s.lookup c.memoize rule s.cursor).2) := Prod.ext h rfl
  rw [memoized, hl]

/-- Without an entry at the cursor the action runs, and its outcome is handed over. -/
theorem memoized_of_lookup [Fragment α] {rule : Rule} {x : Action α} {c : Context} {s : State}
    (h : (s.lookup c.memoize rule s.cursor).1 = none) :
    memoized rule x c s =
      match x c (s.lookup c.memoize rule s.cursor).2 with
      | .matched a u =>
        .matched a (u.store c.memoize rule s.cursor ⟨some (Fragment.toNode a), u.cursor⟩)
      | .failed u => .failed (u.store c.memoize rule s.cursor ⟨none, u.cursor⟩)
      | .stuck e => .stuck e := by
  have hl : s.lookup c.memoize rule s.cursor =
      (none, (s.lookup c.memoize rule s.cursor).2) := Prod.ext h rfl
  rw [memoized, hl]

/-- More rounds keep an answer. -/
theorem manyUpTo_of_le {x : Action α} {m n : Nat} {c : Context} {s : State}
    (h : manyUpTo x m c s ≠ .stuck .endless) (hmn : m ≤ n) :
    manyUpTo x n c s = manyUpTo x m c s := by
  induction m generalizing n s with
  | zero => exact absurd rfl h
  | succ m ih =>
    obtain ⟨n, rfl⟩ : ∃ k, n = k + 1 := ⟨n - 1, by omega⟩
    rw [manyUpTo_succ_apply] at h ⊢
    rw [manyUpTo_succ_apply]
    cases hx : x c s with
    | matched a t =>
      simp only [hx] at h ⊢
      split
      · rfl
      · rename_i ht
        rw [if_neg ht] at h
        rw [ih (fun he => h (by rw [he]; rfl)) (by omega)]
    | failed t => rfl
    | stuck e => rfl

end Action

end TagQuery
