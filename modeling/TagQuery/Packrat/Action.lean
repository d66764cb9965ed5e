import TagQuery.Diagnostic.Furthest
import TagQuery.Packrat.MemoTable
import TagQuery.Text.Span

/-!
# Parsing actions

A parsing action reads from a text at a cursor.  It may match, with a value, or fail; either way it
leaves a state: the cursor, the memo table and the furthest failure.  An action does not rewind by
itself when it fails, that is the work of the combinators.

An action can also get stuck (`Fault`): where a part would end before it begins, which takes a memo
table that does not belong to the text, and where a repetition would never end.

The state also lists the calls made to the memo table and to the record of failures
(`State.calls`), so that statements can be made about their order.
-/

namespace TagQuery

/-- Why an action gets stuck. -/
inductive Fault where
  /-- A span would end before it begins. -/
  | reversedSpan
  /-- A repetition went through more rounds than one that ends can have. -/
  | endless
deriving DecidableEq, Repr

/-- What an action asks of the memo table and of the record of failures. -/
inductive Call where
  /-- The entry of a rule at an offset was asked for; `hit` tells whether there was one. -/
  | lookup (rule : Rule) (offset : Nat) (hit : Bool)
  /-- The outcome of a rule at an offset was handed over. -/
  | store (rule : Rule) (offset : Nat) (entry : Entry)
  /-- A token was not found at an offset. -/
  | expected (offset : Nat) (expected : Expected)
deriving DecidableEq, Repr

/-- What stays the same while an action runs. -/
structure Context where
  /-- The text to read. -/
  input : Text
  /-- The memo table is in use. -/
  memoize : Bool
  /-- No repetition may have more rounds. -/
  rounds : Nat

/-- What an action changes. -/
structure State where
  /-- Byte offset of the next character. -/
  cursor : Nat := 0
  memo : MemoTable := .empty
  furthest : Furthest := .empty
  /-- The calls made so far, the last one first. -/
  calls : List Call := []

namespace State

/-- Nothing read and nothing recorded. -/
def initial : State := {}

/-- The state with the cursor at an offset. -/
def moveTo (s : State) (offset : Nat) : State := { s with cursor := offset }

/-- Record that a token was not found at an offset. -/
def expect (s : State) (offset : Nat) (e : Expected) : State :=
  { s with
    furthest := s.furthest.record offset e
    calls := .expected offset e :: s.calls }

/-- Ask the memo table for an entry.  A table that is not in use has none and does not count. -/
def lookup (s : State) (memoize : Bool) (rule : Rule) (offset : Nat) : Option Entry × State :=
  if memoize then
    let (found, memo) := s.memo.get rule offset
    (found, { s with memo, calls := .lookup rule offset found.isSome :: s.calls })
  else (none, { s with calls := .lookup rule offset false :: s.calls })

/-- Hand an entry to the memo table.  A table that is not in use drops it. -/
def store (s : State) (memoize : Bool) (rule : Rule) (offset : Nat) (entry : Entry) : State :=
  { s with
    memo := if memoize then s.memo.insert rule offset entry else s.memo
    calls := .store rule offset entry :: s.calls }

@[simp] theorem cursor_moveTo (s : State) (n : Nat) : (s.moveTo n).cursor = n := rfl

@[simp] theorem memo_moveTo (s : State) (n : Nat) : (s.moveTo n).memo = s.memo := rfl

@[simp] theorem furthest_moveTo (s : State) (n : Nat) : (s.moveTo n).furthest = s.furthest := rfl

@[simp] theorem calls_moveTo (s : State) (n : Nat) : (s.moveTo n).calls = s.calls := rfl

@[simp] theorem moveTo_cursor (s : State) : s.moveTo s.cursor = s := rfl

@[simp] theorem moveTo_moveTo (s : State) (m n : Nat) : (s.moveTo m).moveTo n = s.moveTo n := rfl

@[simp] theorem cursor_expect (s : State) (n : Nat) (e : Expected) :
    (s.expect n e).cursor = s.cursor := rfl

@[simp] theorem memo_expect (s : State) (n : Nat) (e : Expected) :
    (s.expect n e).memo = s.memo := rfl

@[simp] theorem furthest_expect (s : State) (n : Nat) (e : Expected) :
    (s.expect n e).furthest = s.furthest.record n e := rfl

@[simp] theorem calls_expect (s : State) (n : Nat) (e : Expected) :
    (s.expect n e).calls = .expected n e :: s.calls := rfl

@[simp] theorem lookup_false (s : State) (rule : Rule) (n : Nat) :
    s.lookup false rule n = (none, { s with calls := .lookup rule n false :: s.calls }) := rfl

@[simp] theorem fst_lookup_true (s : State) (rule : Rule) (n : Nat) :
    (s.lookup true rule n).1 = s.memo.find? rule n := by simp [lookup]

@[simp] theorem memo_lookup_true (s : State) (rule : Rule) (n : Nat) :
    (s.lookup true rule n).2.memo = (s.memo.get rule n).2 := rfl

@[simp] theorem cursor_lookup (s : State) (memoize : Bool) (rule : Rule) (n : Nat) :
    (s.lookup memoize rule n).2.cursor = s.cursor := by
  cases memoize <;> rfl

@[simp] theorem furthest_lookup (s : State) (memoize : Bool) (rule : Rule) (n : Nat) :
    (s.lookup memoize rule n).2.furthest = s.furthest := by
  cases memoize <;> rfl

@[simp] theorem cursor_store (s : State) (memoize : Bool) (rule : Rule) (n : Nat) (e : Entry) :
    (s.store memoize rule n e).cursor = s.cursor := rfl

@[simp] theorem furthest_store (s : State) (memoize : Bool) (rule : Rule) (n : Nat) (e : Entry) :
    (s.store memoize rule n e).furthest = s.furthest := rfl

@[simp] theorem memo_store_true (s : State) (rule : Rule) (n : Nat) (e : Entry) :
    (s.store true rule n e).memo = s.memo.insert rule n e := rfl

@[simp] theorem memo_store_false (s : State) (rule : Rule) (n : Nat) (e : Entry) :
    (s.store false rule n e).memo = s.memo := rfl

/-- An answer is the entry in view, and only a table in use gives one. -/
theorem fst_lookup_eq_some_iff {s : State} {memoize : Bool} {rule : Rule} {n : Nat} {e : Entry} :
    (s.lookup memoize rule n).1 = some e ↔ memoize = true ∧ s.memo.find? rule n = some e := by
  cases memoize <;> simp

@[simp] theorem find?_lookup (s : State) (memoize : Bool) (rule : Rule) (n : Nat) (rule' : Rule)
    (n' : Nat) : (s.lookup memoize rule n).2.memo.find? rule' n' = s.memo.find? rule' n' := by
  cases memoize with
  | false => rfl
  | true => rw [memo_lookup_true, MemoTable.find?_get]

/-- After an entry was handed over, what is in view is the entry or was so before. -/
theorem find?_store_cases {s : State} {memoize : Bool} {rule rule' : Rule} {n n' : Nat}
    {e e' : Entry} (h : (s.store memoize rule n e).memo.find? rule' n' = some e') :
    (rule = rule' ∧ n = n' ∧ e = e') ∨ s.memo.find? rule' n' = some e' := by
  cases memoize with
  | false => exact Or.inr h
  | true =>
    rw [memo_store_true, MemoTable.find?_insert] at h
    split at h
    · rename_i hk
      exact Or.inl ⟨hk.1, hk.2, Option.some.inj h⟩
    · exact Or.inr h

end State

/-- How an action ends. -/
inductive Reply (α : Type) where
  | matched (value : α) (state : State)
  | failed (state : State)
  | stuck (fault : Fault)

namespace Reply

variable {α β : Type}

/-- Go on after a match. -/
def andThen : Reply α → (α → State → Reply β) → Reply β
  | matched a s, f => f a s
  | failed s, _ => failed s
  | stuck e, _ => stuck e

/-- Change the value of a match. -/
def map (f : α → β) : Reply α → Reply β
  | matched a s => matched (f a) s
  | failed s => failed s
  | stuck e => stuck e

@[simp] theorem map_matched (f : α → β) (a : α) (s : State) :
    (matched a s).map f = matched (f a) s := rfl

@[simp] theorem map_failed (f : α → β) (s : State) : (failed s).map f = failed s := rfl

@[simp] theorem map_stuck (f : α → β) (e : Fault) : (stuck e).map f = stuck e := rfl

theorem map_map {γ : Type} (r : Reply α) (f : α → β) (g : β → γ) :
    (r.map f).map g = r.map fun a => g (f a) := by
  cases r <;> rfl

theorem map_id (r : Reply α) : (r.map fun a => a) = r := by
  cases r <;> rfl

@[simp] theorem andThen_matched (a : α) (s : State) (f : α → State → Reply β) :
    (matched a s).andThen f = f a s := rfl

@[simp] theorem andThen_failed (s : State) (f : α → State → Reply β) :
    (failed s).andThen f = failed s := rfl

@[simp] theorem andThen_stuck (e : Fault) (f : α → State → Reply β) :
    (stuck e).andThen f = stuck e := rfl

end Reply

/-- An action that reads a part of a text. -/
def Action (α : Type) : Type := Context → State → Reply α

namespace Action

variable {α β : Type}

instance : Monad Action where
  pure a := fun _ s => .matched a s
  bind x f := fun c s => (x c s).andThen fun a t => f a c t
  map f x := fun c s => (x c s).map f

@[simp] theorem pure_apply (a : α) (c : Context) (s : State) :
    (pure a : Action α) c s = .matched a s := rfl

@[simp] theorem bind_apply (x : Action α) (f : α → Action β) (c : Context) (s : State) :
    (x >>= f) c s = (x c s).andThen fun a t => f a c t := rfl

@[simp] theorem map_apply (f : α → β) (x : Action α) (c : Context) (s : State) :
    (f <$> x) c s = (x c s).map f := rfl

/-- Fail where the cursor is. -/
def fail : Action α := fun _ s => .failed s

/-- Match with a value, or fail if there is none. -/
def ofOption : Option α → Action α
  | some a => pure a
  | none => fail

/-- Match with a value, or get stuck if there is none. -/
def orStuck (fault : Fault) : Option α → Action α
  | some a => pure a
  | none => fun _ _ => .stuck fault

/-- The offset of the cursor. -/
def cursor : Action Nat := fun _ s => .matched s.cursor s

/-- Move the cursor, to any offset. -/
def moveTo (offset : Nat) : Action Unit := fun _ s => .matched () (s.moveTo offset)

@[simp] theorem fail_apply (c : Context) (s : State) : (fail : Action α) c s = .failed s := rfl

@[simp] theorem ofOption_some (a : α) : ofOption (some a) = pure a := rfl

@[simp] theorem ofOption_none : (ofOption none : Action α) = fail := rfl

@[simp] theorem orStuck_some (e : Fault) (a : α) : orStuck e (some a) = pure a := rfl

@[simp] theorem orStuck_none_apply (e : Fault) (c : Context) (s : State) :
    (orStuck e none : Action α) c s = .stuck e := rfl

@[simp] theorem cursor_apply (c : Context) (s : State) : cursor c s = .matched s.cursor s := rfl

@[simp] theorem moveTo_apply (n : Nat) (c : Context) (s : State) :
    moveTo n c s = .matched () (s.moveTo n) := rfl

/-! ### Terminals -/

/-- Read as many bytes as `text` has and accept them by `accepts`.  Anything else, the end of the
input or a character that is cut in two included, fails without moving and is recorded as `token`
missing at the cursor. -/
def terminal (rule : Rule) (token : Token) (text : Text) (accepts : Text → Bool) : Action Span :=
  fun c s =>
    if (c.input.slice? s.cursor (s.cursor + text.size)).any accepts then
      .matched (.ofLength s.cursor text.size) (s.moveTo (s.cursor + text.size))
    else .failed (s.expect s.cursor (.new rule token))

/-- Read `text` itself. -/
def literal (rule : Rule) (text : String) : Action Span :=
  terminal rule (.literal text) text.toList fun chunk => chunk = text.toList

/-- Read `text` in any case of ASCII letters. -/
def phrase (rule : Rule) (text : String) : Action Span :=
  terminal rule (.phrase text) text.toList fun chunk =>
    chunk.foldCase = Text.foldCase text.toList

theorem literal_apply (rule : Rule) (text : String) (c : Context) (s : State) :
    literal rule text c s =
      let stop := s.cursor + Text.size text.toList
      if c.input.slice? s.cursor stop = some text.toList then
        .matched (.ofLength s.cursor (Text.size text.toList)) (s.moveTo stop)
      else .failed (s.expect s.cursor (.new rule (.literal text))) := by
  unfold literal terminal
  dsimp only
  cases c.input.slice? s.cursor (s.cursor + Text.size text.toList) <;> simp

theorem phrase_apply (rule : Rule) (text : String) (c : Context) (s : State) :
    phrase rule text c s =
      let stop := s.cursor + Text.size text.toList
      if (c.input.slice? s.cursor stop).map Text.foldCase = some (Text.foldCase text.toList) then
        .matched (.ofLength s.cursor (Text.size text.toList)) (s.moveTo stop)
      else .failed (s.expect s.cursor (.new rule (.phrase text))) := by
  unfold phrase terminal
  dsimp only
  cases c.input.slice? s.cursor (s.cursor + Text.size text.toList) <;> simp

end Action

end TagQuery
