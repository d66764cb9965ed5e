import TagQuery.Grammar.Rules
import TagQuery.Proofs.Failures

/-!
# Outcomes of parsing actions

The `Outcome` of an action at a place: the value if it matches, where it leaves the cursor and the
failures that it records on the way.  `Action.Computes` says that an action has an outcome when no
memo table is in use.  A memo table is sound (`State.Sound`) if each entry is what the rule would
compute there, and the failures that computing it would record are recorded already.

`Action.Yields` is the judgment that everything else is stated in: started at the place in any
sound state, with or without a memo table, the action has the outcome and leaves a sound state.
There is one rule for each way to put actions together.  The one for `Action.memoized`
(`Action.Yields.memoized`) is the heart of the matter: answering from a sound table makes no
difference, because recording again what is recorded changes nothing.
-/

namespace TagQuery

variable {α β : Type}

/-- What an action comes to at one place. -/
structure Outcome (α : Type) where
  /-- The value, if the action matches. -/
  result : Option α
  /-- The cursor afterwards. -/
  stop : Nat
  /-- The failures recorded on the way. -/
  failures : Failures

namespace Outcome

/-- The reply of an action with this outcome. -/
def reply (o : Outcome α) (s : State) : Reply α :=
  match o.result with
  | some a => .matched a s
  | none => .failed s

/-- The state `t` is what an action with this outcome leaves of `s`, apart from the memo table. -/
structure Leads (o : Outcome α) (s t : State) : Prop where
  cursor : t.cursor = o.stop
  furthest : t.furthest = s.furthest.recordAll o.failures

/-- The outcome with another value. -/
def map (f : α → β) (o : Outcome α) : Outcome β := ⟨o.result.map f, o.stop, o.failures⟩

/-- The outcome of what comes after the failures `fs`. -/
def after (fs : Failures) (o : Outcome α) : Outcome α := ⟨o.result, o.stop, fs ++ o.failures⟩

/-- The outcome with the cursor back at `n` in case of a failure. -/
def rewind (n : Nat) (o : Outcome α) : Outcome α :=
  ⟨o.result, if o.result.isSome then o.stop else n, o.failures⟩

@[simp] theorem after_mk (fs gs : Failures) (result : Option α) (stop : Nat) :
    (⟨result, stop, gs⟩ : Outcome α).after fs = ⟨result, stop, fs ++ gs⟩ := rfl

@[simp] theorem rewind_some (n : Nat) (a : α) (stop : Nat) (fs : Failures) :
    (⟨some a, stop, fs⟩ : Outcome α).rewind n = ⟨some a, stop, fs⟩ := rfl

@[simp] theorem rewind_none (n stop : Nat) (fs : Failures) :
    (⟨none, stop, fs⟩ : Outcome α).rewind n = ⟨none, n, fs⟩ := rfl

theorem reply_map (f : α → β) (o : Outcome α) (s : State) :
    (o.map f).reply s = (o.reply s).map f := by
  obtain ⟨result, stop, failures⟩ := o
  cases result <;> rfl

theorem reply_inj {o o' : Outcome α} {s t : State} (h : o.reply s = o'.reply t) :
    o.result = o'.result ∧ s = t := by
  obtain ⟨result, stop, failures⟩ := o
  obtain ⟨result', stop', failures'⟩ := o'
  cases result <;> cases result' <;> simp_all [reply]

theorem reply_ne_stuck (o : Outcome α) (s : State) (e : Fault) : o.reply s ≠ .stuck e := by
  obtain ⟨_ | a, stop, failures⟩ := o <;> simp [reply]

theorem Leads.map {o : Outcome α} {s t : State} (h : o.Leads s t) (f : α → β) :
    (o.map f).Leads s t := ⟨h.cursor, h.furthest⟩

/-- The cursor has not moved backwards, and not past the end of the text. -/
structure Forward (input : Text) (n : Nat) (o : Outcome α) : Prop where
  le_stop : n ≤ o.stop
  stop_le : o.stop = n ∨ o.stop ≤ input.size

end Outcome

/-- Without a memo table the action has the outcome `o` at the offset `n`. -/
def Action.Computes (x : Action α) (input : Text) (n : Nat) (o : Outcome α) : Prop :=
  ∀ rounds s, input.size < rounds → s.cursor = n →
    ∃ t, x ⟨input, false, rounds⟩ s = o.reply t ∧ o.Leads s t

/-- Each entry of a memo table in use is what its rule computes at its offset, and the failures of
that computation have been recorded. -/
def State.Sound (c : Context) (s : State) : Prop :=
  c.memoize = true → ∀ rule n entry, s.memo.find? rule n = some entry →
    ∃ failures, rule.action.Computes c.input n ⟨entry.result, entry.stop, failures⟩ ∧
      s.furthest.Covers failures

/-- In any sound state the action has the outcome `o` at the offset `n`, and leaves a sound
state. -/
def Action.Yields (x : Action α) (input : Text) (n : Nat) (o : Outcome α) : Prop :=
  ∀ c s, c.input = input → input.size < c.rounds → s.cursor = n → s.Sound c →
    ∃ t, x c s = o.reply t ∧ o.Leads s t ∧ t.Sound c

namespace State

variable {c : Context} {s t : State}

/-- A state keeps soundness if it has the same entries and no failure has been forgotten. -/
theorem Sound.of_covers (h : s.Sound c) (hm : ∀ rule n, t.memo.find? rule n = s.memo.find? rule n)
    (hf : ∀ fs, s.furthest.Covers fs → t.furthest.Covers fs) : t.Sound c := by
  intro hc rule n entry he
  rw [hm] at he
  obtain ⟨failures, hcomp, hcov⟩ := h hc rule n entry he
  exact ⟨failures, hcomp, hf failures hcov⟩

theorem Sound.moveTo (h : s.Sound c) (n : Nat) : (s.moveTo n).Sound c :=
  h.of_covers (fun _ _ => rfl) fun _ hf => hf

theorem Sound.expect (h : s.Sound c) (n : Nat) (e : Expected) : (s.expect n e).Sound c :=
  h.of_covers (fun _ _ => rfl) fun _ hf => hf.record n e

theorem Sound.lookup (h : s.Sound c) (rule : Rule) (n : Nat) :
    (s.lookup c.memoize rule n).2.Sound c := by
  exact h.of_covers (fun rule' n' => find?_lookup ..) fun fs hf => by rwa [furthest_lookup]

theorem Sound.store {rule : Rule} {n : Nat} {entry : Entry} {failures : Failures} (h : s.Sound c)
    (hcomp : rule.action.Computes c.input n ⟨entry.result, entry.stop, failures⟩)
    (hcov : s.furthest.Covers failures) : (s.store c.memoize rule n entry).Sound c := by
  intro hc rule' n' entry' he
  rcases find?_store_cases he with ⟨rfl, rfl, rfl⟩ | he
  · exact ⟨failures, hcomp, hcov⟩
  · exact h hc rule' n' entry' he

theorem sound_of_empty (hs : s.memo = .empty) : s.Sound c := by
  intro _ rule n entry he
  simp [hs] at he

end State

namespace Action

variable {input : Text} {n m k : Nat} {x : Action α} {o : Outcome α} {fs gs : Failures}

theorem Yields.of_eq {o' : Outcome α} (h : x.Yields input n o) (ho : o = o') :
    x.Yields input n o' := ho ▸ h

theorem Yields.computes (h : x.Yields input n o) : x.Computes input n o := by
  intro rounds s hr hn
  obtain ⟨t, ht, hl, -⟩ := h ⟨input, false, rounds⟩ s rfl hr hn (fun hc => by cases hc)
  exact ⟨t, ht, hl⟩

theorem Computes.map (h : x.Computes input n o) (f : α → β) :
    (f <$> x).Computes input n (o.map f) := by
  intro rounds s hr hn
  obtain ⟨t, ht, hl⟩ := h rounds s hr hn
  exact ⟨t, by rw [map_apply, ht, Outcome.reply_map], hl.map f⟩

/-- An action computes one outcome, up to failures that make no difference. -/
theorem Computes.unique {o' : Outcome α} (h : x.Computes input n o) (h' : x.Computes input n o') :
    o.result = o'.result ∧ o.stop = o'.stop ∧
      ∀ f : Furthest, f.recordAll o.failures = f.recordAll o'.failures := by
  have key : ∀ f : Furthest, o.result = o'.result ∧ o.stop = o'.stop ∧
      f.recordAll o.failures = f.recordAll o'.failures := by
    intro f
    let s : State := { cursor := n, furthest := f }
    obtain ⟨t, ht, hl⟩ := h (input.size + 1) s (Nat.lt_succ_self _) rfl
    obtain ⟨t', ht', hl'⟩ := h' (input.size + 1) s (Nat.lt_succ_self _) rfl
    obtain ⟨hres, rfl⟩ := Outcome.reply_inj (ht.symm.trans ht')
    exact ⟨hres, hl.cursor.symm.trans hl'.cursor, hl.furthest.symm.trans hl'.furthest⟩
  exact ⟨(key .empty).1, (key .empty).2.1, fun f => (key f).2.2⟩

/-! ### One rule for each way to put actions together -/

theorem Yields.pure (a : α) : (pure a : Action α).Yields input n ⟨some a, n, []⟩ := by
  rintro c s - - rfl hs
  exact ⟨s, rfl, ⟨rfl, rfl⟩, hs⟩

theorem Yields.fail : (fail : Action α).Yields input n ⟨none, n, []⟩ := by
  rintro c s - - rfl hs
  exact ⟨s, rfl, ⟨rfl, rfl⟩, hs⟩

theorem Yields.cursor : cursor.Yields input n ⟨some n, n, []⟩ := by
  rintro c s - - rfl hs
  exact ⟨s, rfl, ⟨rfl, rfl⟩, hs⟩

theorem terminal_yields (rule : Rule) (token : Token) {text : Text} {accepts : Text → Bool}
    (h : (input.slice? n (n + text.size)).any accepts) :
    (terminal rule token text accepts).Yields input n
      ⟨some (.ofLength n text.size), n + text.size, []⟩ := by
  rintro c s rfl - rfl hs
  refine ⟨s.moveTo (s.cursor + text.size), ?_, ⟨rfl, rfl⟩, hs.moveTo _⟩
  rw [terminal, if_pos h]
  rfl

theorem terminal_yields_failed (rule : Rule) (token : Token) {text : Text}
    {accepts : Text → Bool} (h : ¬ (input.slice? n (n + text.size)).any accepts) :
    (terminal rule token text accepts).Yields input n
      ⟨none, n, [(n, .new rule token)]⟩ := by
  rintro c s rfl - rfl hs
  refine ⟨s.expect s.cursor (.new rule token), ?_, ⟨rfl, rfl⟩, hs.expect _ _⟩
  rw [terminal, if_neg h]
  rfl

theorem Yields.map (h : x.Yields input n o) (f : α → β) : (f <$> x).Yields input n (o.map f) := by
  intro c s hc hr hn hs
  obtain ⟨t, ht, hl, hs'⟩ := h c s hc hr hn hs
  exact ⟨t, by rw [map_apply, ht, Outcome.reply_map], hl.map f, hs'⟩

theorem Yields.bind {a : α} {f : α → Action β} {o : Outcome β}
    (hx : x.Yields input n ⟨some a, m, fs⟩) (hf : (f a).Yields input m o) :
    (x >>= f).Yields input n (o.after fs) := by
  intro c s hc hr hn hs
  obtain ⟨t, ht, hl, hs'⟩ := hx c s hc hr hn hs
  obtain ⟨u, hu, hl', hs''⟩ := hf c t hc hr hl.cursor hs'
  refine ⟨u, ?_, ⟨hl'.cursor, ?_⟩, hs''⟩
  · rw [bind_apply, ht]
    exact hu
  · rw [hl'.furthest, hl.furthest]
    exact (Furthest.recordAll_append ..).symm

theorem Yields.bind_failed {f : α → Action β} (hx : x.Yields input n ⟨none, m, fs⟩) :
    (x >>= f).Yields input n ⟨none, m, fs⟩ := by
  intro c s hc hr hn hs
  obtain ⟨t, ht, hl, hs'⟩ := hx c s hc hr hn hs
  refine ⟨t, ?_, ⟨hl.cursor, hl.furthest⟩, hs'⟩
  rw [bind_apply, ht]
  rfl

theorem Yields.sequence (h : x.Yields input n o) : (sequence x).Yields input n (o.rewind n) := by
  intro c s hc hr hn hs
  obtain ⟨t, ht, hl, hs'⟩ := h c s hc hr hn hs
  obtain ⟨result, stop, failures⟩ := o
  cases result with
  | some a => exact ⟨t, by rw [Action.sequence, ht]; rfl, ⟨hl.cursor, hl.furthest⟩, hs'⟩
  | none => exact ⟨t.moveTo s.cursor, by rw [Action.sequence, ht]; rfl, ⟨hn, hl.furthest⟩,
      hs'.moveTo _⟩

theorem Yields.optional (h : x.Yields input n o) :
    (optional x).Yields input n ⟨some o.result, (o.rewind n).stop, o.failures⟩ := by
  intro c s hc hr hn hs
  obtain ⟨t, ht, hl, hs'⟩ := h.sequence c s hc hr hn hs
  refine ⟨t, ?_, ⟨hl.cursor, hl.furthest⟩, hs'⟩
  rw [optional_apply, ht]
  obtain ⟨result, stop, failures⟩ := o
  cases result <;> rfl

theorem Yields.choice_nil : (choice ([] : List (Action α))).Yields input n ⟨none, n, []⟩ :=
  Yields.fail

theorem Yields.choice_matched {a : α} {xs : List (Action α)}
    (hx : x.Yields input n ⟨some a, m, fs⟩) :
    (choice (x :: xs)).Yields input n ⟨some a, m, fs⟩ := by
  intro c s hc hr hn hs
  obtain ⟨t, ht, hl, hs'⟩ := hx c s hc hr hn hs
  exact ⟨t, by rw [choice_cons_apply, ht]; rfl, hl, hs'⟩

theorem Yields.choice_failed {xs : List (Action α)} (hx : x.Yields input n ⟨none, m, fs⟩)
    (hxs : (choice xs).Yields input n o) : (choice (x :: xs)).Yields input n (o.after fs) := by
  intro c s hc hr hn hs
  obtain ⟨t, ht, hl, hs'⟩ := hx c s hc hr hn hs
  obtain ⟨u, hu, hl', hs''⟩ := hxs c (t.moveTo s.cursor) hc hr hn (hs'.moveTo _)
  refine ⟨u, ?_, ⟨hl'.cursor, ?_⟩, hs''⟩
  · rw [choice_cons_apply, ht]
    exact hu
  · rw [hl'.furthest, State.furthest_moveTo, hl.furthest]
    exact (Furthest.recordAll_append ..).symm

/-- Repeating the action has the outcome `o` at `n`, for every limit that leaves a round for each
byte after `n` and one more. -/
def Repeats (x : Action α) (input : Text) (n : Nat) (o : Outcome (List α)) : Prop :=
  ∀ limit, input.size - n < limit → (manyUpTo x limit).Yields input n o

theorem Repeats.many {o : Outcome (List α)} (h : Repeats x input n o) :
    (many x).Yields input n o := by
  intro c s hc hr hn hs
  exact h c.rounds (by omega) c s hc hr hn hs

/-- A round that fails is undone. -/
theorem Repeats.stop (hx : x.Yields input n ⟨none, m, fs⟩) :
    Repeats x input n ⟨some [], n, fs⟩ := by
  intro limit hl c s hc hr hn hs
  obtain ⟨limit, rfl⟩ : ∃ l, limit = l + 1 := ⟨limit - 1, by omega⟩
  obtain ⟨t, ht, hl', hs'⟩ := hx c s hc hr hn hs
  exact ⟨t.moveTo s.cursor, by rw [manyUpTo_succ_apply, ht]; rfl, ⟨hn, hl'.furthest⟩,
    hs'.moveTo _⟩

/-- A round that matches without moving is the last one. -/
theorem Repeats.still {a : α} (hx : x.Yields input n ⟨some a, n, fs⟩) :
    Repeats x input n ⟨some [a], n, fs⟩ := by
  intro limit hl c s hc hr hn hs
  obtain ⟨limit, rfl⟩ : ∃ l, limit = l + 1 := ⟨limit - 1, by omega⟩
  obtain ⟨t, ht, hl', hs'⟩ := hx c s hc hr hn hs
  have hst : t.cursor = s.cursor := hl'.cursor.trans hn.symm
  refine ⟨t, ?_, ⟨hl'.cursor, hl'.furthest⟩, hs'⟩
  rw [manyUpTo_succ_apply, ht]
  simp only [Outcome.reply, hst, ↓reduceIte]

/-- A round that matches and moves is followed by the rounds from there on. -/
theorem Repeats.step {a : α} {as : List α} (hx : x.Yields input n ⟨some a, m, fs⟩) (hnm : n < m)
    (hm : m ≤ input.size) (h : Repeats x input m ⟨some as, k, gs⟩) :
    Repeats x input n ⟨some (a :: as), k, fs ++ gs⟩ := by
  intro limit hl c s hc hr hn hs
  obtain ⟨limit, rfl⟩ : ∃ l, limit = l + 1 := ⟨limit - 1, by omega⟩
  obtain ⟨t, ht, hl', hs'⟩ := hx c s hc hr hn hs
  have hst : t.cursor ≠ s.cursor := by
    rw [hl'.cursor, hn]
    exact Nat.ne_of_gt hnm
  obtain ⟨u, hu, hl'', hs''⟩ := h limit (by omega) c t hc hr hl'.cursor hs'
  refine ⟨u, ?_, ⟨hl''.cursor, ?_⟩, hs''⟩
  · rw [manyUpTo_succ_apply, ht]
    simp only [Outcome.reply, hst, ↓reduceIte] at hu ⊢
    rw [hu]
    rfl
  · rw [hl''.furthest, hl'.furthest]
    exact (Furthest.recordAll_append ..).symm

/-! ### Memoization -/

/-- Without a memo table, memoization does nothing. -/
theorem Computes.memoized [Fragment α] (h : x.Computes input n o) (rule : Rule) :
    (memoized rule x).Computes input n o := by
  intro rounds s hr hn
  obtain ⟨t, ht, hl⟩ := h rounds (s.lookup false rule s.cursor).2 hr hn
  obtain ⟨result, stop, failures⟩ := o
  rw [memoized_of_lookup rfl, ht]
  cases result with
  | some a => exact ⟨_, rfl, hl.cursor, hl.furthest⟩
  | none => exact ⟨_, rfl, hl.cursor, hl.furthest⟩

/-- **Memoization makes no difference.**  A memoized action has the outcome of the action itself,
provided that the memo table is asked about the rule that the action stands for. -/
theorem Yields.memoized [Fragment α] {rule : Rule} (h : x.Yields input n o)
    (hrule : rule.action = Fragment.toNode <$> memoized rule x) :
    (memoized rule x).Yields input n o := by
  have hcomp : rule.action.Computes input n (o.map Fragment.toNode) := by
    rw [hrule]
    exact (h.computes.memoized rule).map _
  rintro c s rfl hr rfl hs
  cases hlook : (s.lookup c.memoize rule s.cursor).1 with
  | some entry =>
    -- the entry and the rule compute the same, and nothing is left to record
    obtain ⟨hc, hfind⟩ := State.fst_lookup_eq_some_iff.1 hlook
    obtain ⟨failures, he, hcov⟩ := hs hc rule s.cursor entry hfind
    obtain ⟨hres, hstop, hrec⟩ := he.unique hcomp
    have hsame : s.furthest.recordAll o.failures = s.furthest :=
      (hrec s.furthest).symm.trans (Furthest.covers_iff.1 hcov)
    refine ⟨(s.lookup c.memoize rule s.cursor).2.moveTo entry.stop, ?_, ⟨hstop, ?_⟩,
      (hs.lookup rule s.cursor).moveTo _⟩
    · rw [memoized_of_lookup_some hlook, replay_apply,
        show entry.result = o.result.map _ from hres]
      obtain ⟨_ | a, stop, fs⟩ := o
      · rfl
      · simp [Outcome.reply]
    · rw [State.furthest_moveTo, State.furthest_lookup, hsame]
  | none =>
    obtain ⟨t, ht, hl, hs'⟩ := h c (s.lookup c.memoize rule s.cursor).2 rfl hr
      (State.cursor_lookup ..) (hs.lookup rule s.cursor)
    rw [memoized_of_lookup hlook, ht]
    have hf : t.furthest = s.furthest.recordAll o.failures := by
      rw [hl.furthest, State.furthest_lookup]
    have hcov : t.furthest.Covers o.failures := by
      rw [hf]
      exact Furthest.covers_recordAll s.furthest o.failures
    obtain ⟨result, stop, fs⟩ := o
    cases result with
    | some a =>
      exact ⟨_, rfl, ⟨hl.cursor, hf⟩, hs'.store (hl.cursor ▸ hcomp) hcov⟩
    | none =>
      exact ⟨_, rfl, ⟨hl.cursor, hf⟩, hs'.store (hl.cursor ▸ hcomp) hcov⟩

end Action

end TagQuery
