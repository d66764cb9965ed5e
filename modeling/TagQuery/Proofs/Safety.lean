import TagQuery.Proofs.History

/-!
# The cursor only moves forward

Started anywhere, an action leaves the cursor where it is or moves it forward from one boundary of
the text to another (`Text.Reaches`).  A span is made of two offsets that the cursor has been at, so
none of them is reversed; and a repetition goes on only while the cursor moves, so it ends.

`Action.Advances` is the judgment.  Unlike `Action.Yields` it does not say what is read, so it also
holds of expressions that write memo entries of their own, under the key of any rule.  What it needs
to know of a memo table is that each entry leads forward too (`State.Forward`), and every action
keeps this.

* One rule for each way to put actions together, then one for each rule of the grammar
  (`Rule.advances`) and for each expression without moves of its own (`Expr.advances`).
* What a step keeps is `Parser.forward_step`, and `steps_advance` says what it means for a session.
-/

namespace TagQuery

variable {α β : Type} {input : Text} {m n k : Nat}

/-! ### Where the cursor can get -/

/-- The cursor can get from `m` to `n`: it stays, or it moves forward from a boundary to another. -/
def Text.Reaches (t : Text) (m n : Nat) : Prop :=
  m = n ∨ m ≤ n ∧ t.IsBoundary m ∧ t.IsBoundary n

namespace Text.Reaches

variable {t w : Text}

theorem refl (t : Text) (n : Nat) : t.Reaches n n := Or.inl rfl

theorem trans (h : t.Reaches m n) (h' : t.Reaches n k) : t.Reaches m k := by
  rcases h with rfl | ⟨hmn, hm, hn⟩
  · exact h'
  · rcases h' with rfl | ⟨hnk, -, hk⟩
    · exact Or.inr ⟨hmn, hm, hn⟩
    · exact Or.inr ⟨Nat.le_trans hmn hnk, hm, hk⟩

theorem le (h : t.Reaches m n) : m ≤ n := by
  rcases h with rfl | ⟨hmn, -, -⟩
  · exact Nat.le_refl m
  · exact hmn

theorem isBoundary (h : t.Reaches m n) (hm : t.IsBoundary m) : t.IsBoundary n := by
  rcases h with rfl | ⟨-, -, hn⟩
  · exact hm
  · exact hn

theorem eq_of_not_isBoundary (h : t.Reaches m n) (hm : ¬ t.IsBoundary m) : n = m := by
  rcases h with rfl | ⟨-, hm', -⟩
  · rfl
  · exact absurd hm' hm

theorem le_size (h : t.Reaches m n) (hne : n ≠ m) : n ≤ t.size := by
  rcases h with rfl | ⟨-, -, hn⟩
  · exact absurd rfl hne
  · exact hn.le_size

theorem of_slice? (h : t.slice? m n = some w) : t.Reaches m n :=
  Or.inr (exists_slice?_iff.1 ⟨w, h⟩)

theorem exists_span (h : t.Reaches m n) : ∃ s, Span.ofOffsets? m n = some s := by
  refine Option.ne_none_iff_exists'.1 fun hnone => ?_
  have := Span.new?_eq_none_iff.1 hnone
  have := Span.limit_le_limit h.le
  omega

end Text.Reaches

/-- The node says that it was read from `m` to `n`. -/
def Node.Spans (x : Node) (m n : Nat) : Prop := Span.ofOffsets? m n = some x.span

theorem Node.spans_iff {x : Node} :
    x.Spans m n ↔ x.span.start = Span.limit m ∧ x.span.stop = Span.limit n :=
  Span.new?_eq_some_iff

/-! ### Memo tables that lead forward -/

/-- The entry of a rule at `n` leads forward, and its node was read on the way. -/
structure Entry.Forward (input : Text) (n : Nat) (entry : Entry) : Prop where
  reaches : input.Reaches n entry.stop
  spans : ∀ x, entry.result = some x → x.Spans n entry.stop

/-- Every entry in view leads forward. -/
def State.Forward (input : Text) (s : State) : Prop :=
  ∀ rule n entry, s.memo.find? rule n = some entry → entry.Forward input n

namespace State.Forward

variable {s t : State}

theorem of_find? (h : s.Forward input)
    (hm : ∀ rule n, t.memo.find? rule n = s.memo.find? rule n) : t.Forward input :=
  fun rule n entry he => h rule n entry (hm rule n ▸ he)

theorem initial (input : Text) : State.initial.Forward input := by
  intro rule n entry he
  simp [State.initial] at he

theorem moveTo (h : s.Forward input) (n : Nat) : (s.moveTo n).Forward input :=
  h.of_find? fun _ _ => rfl

theorem expect (h : s.Forward input) (n : Nat) (e : Expected) : (s.expect n e).Forward input :=
  h.of_find? fun _ _ => rfl

theorem lookup (h : s.Forward input) (memoize : Bool) (rule : Rule) (n : Nat) :
    (s.lookup memoize rule n).2.Forward input :=
  h.of_find? fun _ _ => find?_lookup ..

theorem store {n : Nat} {entry : Entry} (h : s.Forward input) (he : entry.Forward input n)
    (memoize : Bool) (rule : Rule) : (s.store memoize rule n entry).Forward input := by
  intro rule' n' entry' he'
  rcases find?_store_cases he' with ⟨-, rfl, rfl⟩ | he'
  · exact he
  · exact h rule' n' entry' he'

end State.Forward

/-! ### Actions that advance -/

/-- The cursor got here from `m`, and the table still leads forward. -/
structure State.Ahead (input : Text) (m : Nat) (t : State) : Prop where
  reaches : input.Reaches m t.cursor
  forward : t.Forward input

/-- Started at `m` with a table that leads forward, the action does not get stuck and moves the
cursor forward or not at all.  The value of a match fits the place where the cursor is then. -/
def Action.Advances (x : Action α) (input : Text) (m : Nat) (fits : α → Nat → Prop) : Prop :=
  ∀ c s, c.input = input → input.size < c.rounds → s.cursor = m → s.Forward input →
    (∃ a t, x c s = .matched a t ∧ t.Ahead input m ∧ fits a t.cursor) ∨
      ∃ t, x c s = .failed t ∧ t.Ahead input m

namespace State.Ahead

variable {s t : State}

theorem trans (h : input.Reaches m n) (h' : t.Ahead input n) : t.Ahead input m :=
  ⟨h.trans h'.reaches, h'.forward⟩

/-- Back where it was, the cursor has not moved. -/
theorem rewind (h : t.Ahead input m) : (t.moveTo m).Ahead input m :=
  ⟨Text.Reaches.refl input m, h.forward.moveTo m⟩

theorem store {result : Option Node} (h : t.Ahead input m)
    (hspans : ∀ x, result = some x → x.Spans m t.cursor) (memoize : Bool) (rule : Rule) :
    (t.store memoize rule m ⟨result, t.cursor⟩).Ahead input m :=
  ⟨h.reaches, h.forward.store ⟨h.reaches, hspans⟩ memoize rule⟩

end State.Ahead

namespace Action.Advances

variable {x : Action α} {xs : List (Action α)} {fits : α → Nat → Prop} {fits' : β → Nat → Prop}

theorem pure {a : α} (h : fits a m) : (pure a : Action α).Advances input m fits := by
  rintro c s - - rfl hs
  exact Or.inl ⟨a, s, rfl, ⟨Text.Reaches.refl input _, hs⟩, h⟩

theorem fail : (fail : Action α).Advances input m fits := by
  rintro c s - - rfl hs
  exact Or.inr ⟨s, rfl, Text.Reaches.refl input _, hs⟩

theorem cursor : cursor.Advances input m fun a n => a = m ∧ n = m := by
  rintro c s - - rfl hs
  exact Or.inl ⟨s.cursor, s, rfl, ⟨Text.Reaches.refl input _, hs⟩, rfl, rfl⟩

theorem ofOption {o : Option α} (h : ∀ a, o = some a → fits a m) :
    (ofOption o).Advances input m fits := by
  cases o with
  | some a => exact pure (h a rfl)
  | none => exact fail

theorem orStuck {o : Option α} (e : Fault) (h : ∃ a, o = some a ∧ fits a m) :
    (orStuck e o).Advances input m fits := by
  obtain ⟨a, rfl, hfit⟩ := h
  exact pure hfit

/-- A terminal reads a slice, whose ends are boundaries. -/
theorem terminal (rule : Rule) (token : Token) (text : Text) (accepts : Text → Bool) :
    (terminal rule token text accepts).Advances input m
      fun span n => Span.ofOffsets? m n = some span := by
  rintro c s rfl - rfl hs
  by_cases h : (c.input.slice? s.cursor (s.cursor + text.size)).any accepts
  · obtain ⟨w, hw, -⟩ := (Option.any_eq_true ..).1 h
    refine Or.inl ⟨_, _, by rw [Action.terminal, if_pos h], ⟨?_, hs.moveTo _⟩, ?_⟩
    · exact Text.Reaches.of_slice? hw
    · exact Span.ofOffsets?_add ..
  · refine Or.inr ⟨_, by rw [Action.terminal, if_neg h], ?_, hs.expect _ _⟩
    exact Text.Reaches.refl c.input _

theorem mono {fits₂ : α → Nat → Prop} (h : x.Advances input m fits)
    (himp : ∀ a n, fits a n → fits₂ a n) : x.Advances input m fits₂ := by
  intro c s hc hr hm hs
  obtain ⟨a, t, hx, ht, hfit⟩ | hfailed := h c s hc hr hm hs
  · exact Or.inl ⟨a, t, hx, ht, himp a _ hfit⟩
  · exact Or.inr hfailed

theorem map {f : α → β} (h : x.Advances input m fun a n => fits' (f a) n) :
    (f <$> x).Advances input m fits' := by
  intro c s hc hr hm hs
  obtain ⟨a, t, hx, ht, hfit⟩ | ⟨t, hx, ht⟩ := h c s hc hr hm hs
  · exact Or.inl ⟨f a, t, by rw [map_apply, hx, Reply.map_matched], ht, hfit⟩
  · exact Or.inr ⟨t, by rw [map_apply, hx, Reply.map_failed], ht⟩

theorem bind {f : α → Action β} (h : x.Advances input m fits)
    (hf : ∀ a n, input.Reaches m n → fits a n → (f a).Advances input n fits') :
    (x >>= f).Advances input m fits' := by
  intro c s hc hr hm hs
  obtain ⟨a, t, hx, ht, hfit⟩ | ⟨t, hx, ht⟩ := h c s hc hr hm hs
  · obtain ⟨b, u, hu, hu', hfit'⟩ | ⟨u, hu, hu'⟩ :=
      hf a t.cursor ht.reaches hfit c t hc hr rfl ht.forward
    · exact Or.inl ⟨b, u, by rw [bind_apply, hx]; exact hu, hu'.trans ht.reaches, hfit'⟩
    · exact Or.inr ⟨u, by rw [bind_apply, hx]; exact hu, hu'.trans ht.reaches⟩
  · exact Or.inr ⟨t, by rw [bind_apply, hx, Reply.andThen_failed], ht⟩

theorem sequence (h : x.Advances input m fits) : (sequence x).Advances input m fits := by
  intro c s hc hr hm hs
  obtain ⟨a, t, hx, ht, hfit⟩ | ⟨t, hx, ht⟩ := h c s hc hr hm hs
  · exact Or.inl ⟨a, t, by rw [Action.sequence, hx], ht, hfit⟩
  · exact Or.inr ⟨t.moveTo m, by rw [Action.sequence, hx, hm], ht.rewind⟩

theorem optional (h : x.Advances input m fits) :
    (optional x).Advances input m fun o n => o.elim (n = m) (fits · n) := by
  intro c s hc hr hm hs
  obtain ⟨a, t, hx, ht, hfit⟩ | ⟨t, hx, ht⟩ := h c s hc hr hm hs
  · exact Or.inl ⟨some a, t, by rw [Action.optional, hx], ht, hfit⟩
  · exact Or.inl ⟨none, t.moveTo m, by rw [Action.optional, hx, hm], ht.rewind, rfl⟩

theorem chain {fits : Nat → α → Nat → Prop} (h : ∀ x ∈ xs, ∀ n, x.Advances input n (fits n)) :
    (chain xs).Advances input m fun _ _ => True := by
  induction xs generalizing m with
  | nil => exact pure trivial
  | cons x xs ih =>
    have hxs n := ih (m := n) fun y hy => h y (List.mem_cons_of_mem x hy)
    exact (h x List.mem_cons_self m).bind fun _ n _ _ => (hxs n).bind fun _ _ _ _ => pure trivial

theorem choice (h : ∀ x ∈ xs, x.Advances input m fits) : (choice xs).Advances input m fits := by
  induction xs with
  | nil => exact fail
  | cons x xs ih =>
    intro c s hc hr hm hs
    obtain ⟨a, t, hx, ht, hfit⟩ | ⟨t, hx, ht⟩ := h x List.mem_cons_self c s hc hr hm hs
    · exact Or.inl ⟨a, t, by rw [choice_cons_apply, hx], ht, hfit⟩
    · rw [choice_cons_apply, hx, hm]
      exact ih (fun y hy => h y (List.mem_cons_of_mem x hy)) c (t.moveTo m) hc hr rfl
        (ht.forward.moveTo m)

/-- Rounds that move the cursor leave fewer bytes before the end, so there are enough of them. -/
theorem manyUpTo {fits : Nat → α → Nat → Prop} {limit : Nat}
    (h : ∀ n, x.Advances input n (fits n)) (hl : input.size - m < limit) :
    (manyUpTo x limit).Advances input m fun _ _ => True := by
  induction limit generalizing m with
  | zero => omega
  | succ limit ih =>
    intro c s hc hr hm hs
    obtain ⟨a, t, hx, ht, -⟩ | ⟨t, hx, ht⟩ := h m c s hc hr hm hs
    · by_cases hstill : t.cursor = s.cursor
      · exact Or.inl ⟨[a], t, by rw [manyUpTo_succ_apply, hx]; exact if_pos hstill, ht, trivial⟩
      · -- the rest of the rounds has fewer bytes before it, by at least one
        have hlt : m < t.cursor :=
          Nat.lt_of_le_of_ne ht.reaches.le fun he => hstill (by rw [hm, he])
        have hsize : t.cursor ≤ input.size := ht.reaches.le_size (by omega)
        have hround : manyUpTo x (limit + 1) c s = (manyUpTo x limit c t).map (a :: ·) := by
          rw [manyUpTo_succ_apply, hx]
          exact if_neg hstill
        obtain ⟨as, u, hu, hu', -⟩ | ⟨u, hu, hu'⟩ :=
          ih (m := t.cursor) (by omega) c t hc hr rfl ht.forward
        · exact Or.inl ⟨a :: as, u, by rw [hround, hu, Reply.map_matched], hu'.trans ht.reaches,
            trivial⟩
        · exact Or.inr ⟨u, by rw [hround, hu, Reply.map_failed], hu'.trans ht.reaches⟩
    · exact Or.inl ⟨[], t.moveTo m, by rw [manyUpTo_succ_apply, hx, hm], ht.rewind, trivial⟩

theorem many {fits : Nat → α → Nat → Prop} (h : ∀ n, x.Advances input n (fits n)) :
    (many x).Advances input m fun _ _ => True := by
  intro c s hc hr hm hs
  exact manyUpTo h (by omega) c s hc hr hm hs

/-- An entry leads forward like the action that left it, whatever the action is. -/
theorem memoized [Fragment α] (rule : Rule)
    (h : x.Advances input m fun a n => (Fragment.toNode a).Spans m n) :
    (memoized rule x).Advances input m fun a n => (Fragment.toNode a).Spans m n := by
  rintro c s hc hr rfl hs
  have hlookup := hs.lookup c.memoize rule s.cursor
  cases hlook : (s.lookup c.memoize rule s.cursor).1 with
  | some entry =>
    obtain ⟨hreach, hspans⟩ := hs rule s.cursor entry (State.fst_lookup_eq_some_iff.1 hlook).2
    have ht : ((s.lookup c.memoize rule s.cursor).2.moveTo entry.stop).Ahead input s.cursor :=
      ⟨hreach, hlookup.moveTo entry.stop⟩
    rw [memoized_of_lookup_some hlook, replay_apply]
    -- a node of another type is no result, but the cursor goes to the end of the entry all the same
    cases hres : entry.result.bind (Fragment.ofNode? (α := α)) with
    | none => exact Or.inr ⟨_, rfl, ht⟩
    | some a =>
      obtain ⟨n, hn, ha⟩ := Option.bind_eq_some_iff.1 hres
      obtain rfl := Fragment.ofNode?_eq_some_iff.1 ha
      exact Or.inl ⟨a, _, rfl, ht, hspans _ hn⟩
  | none =>
    rw [memoized_of_lookup hlook]
    obtain ⟨a, t, hx, ht, hfit⟩ | ⟨t, hx, ht⟩ := h c _ hc hr (State.cursor_lookup ..) hlookup
    · rw [hx]
      exact Or.inl ⟨a, _, rfl, ht.store (by rintro _ ⟨⟩; exact hfit) _ rule, hfit⟩
    · rw [hx]
      exact Or.inr ⟨_, rfl, ht.store (by rintro _ ⟨⟩) _ rule⟩

end Action.Advances

/-! ### Rules -/

/-- Started anywhere, the action advances, and what it reads says where it was read. -/
def Action.Reads [Fragment α] (x : Action α) (input : Text) : Prop :=
  ∀ m, x.Advances input m fun a n => (Fragment.toNode a).Spans m n

/-- The spans of a sign and of a tag that are read one after the other fit together. -/
theorem Identifier.exists_new? {negation : Option Span} {tag : TagMatch}
    (hneg : negation.elim (k = m) fun span => (Node.negation span).Spans m k)
    (htag : (Node.tag tag).Spans k n) (h : input.Reaches m n) :
    ∃ x, Identifier.new? negation tag = some x ∧ (Node.identifier x).Spans m n := by
  obtain ⟨hstart, hstop⟩ := Node.spans_iff.1 htag
  have hfirst : (negation.getD tag.span).start = Span.limit m := by
    cases negation with
    | none =>
      -- without a sign the cursor has not moved, and the tag begins where the identifier does
      obtain rfl : k = m := hneg
      exact hstart
    | some span => exact (Node.spans_iff.1 hneg).1
  obtain ⟨span, hspan⟩ := h.exists_span
  refine ⟨⟨negation, tag, span⟩, ?_, hspan⟩
  rw [Identifier.new?, hfirst, show tag.span.stop = Span.limit n from hstop]
  exact congrArg (Option.map _) hspan

namespace Grammar

open TagQuery.Action

theorem negation_reads (input : Text) : negation.Reads input :=
  fun _ => Advances.memoized .negation (Advances.terminal _ _ _ _)

theorem binaryOp_reads (input : Text) : binaryOp.Reads input := by
  refine fun m => Advances.memoized .binaryOp (Advances.choice fun x hx => ?_)
  obtain ⟨op, -, rfl⟩ := List.mem_map.1 hx
  exact Advances.map (Advances.terminal _ _ _ _)

theorem category_reads (c : Category) (input : Text) : (category c).Reads input := by
  refine fun m => Advances.memoized c.rule (Advances.choice fun x hx => ?_)
  obtain ⟨tag, -, rfl⟩ := List.mem_map.1 hx
  exact Advances.map (Advances.terminal _ _ _ _)

theorem tag_reads (input : Text) : Grammar.tag.Reads input := by
  refine fun m => Advances.memoized .tag (Advances.choice fun x hx => ?_)
  obtain ⟨c, -, rfl⟩ := List.mem_map.1 hx
  exact category_reads c input m

theorem identifier_reads (input : Text) : identifier.Reads input := by
  refine fun m => Advances.memoized .identifier (Advances.sequence ?_)
  refine (Advances.optional (negation_reads input m)).bind fun negation k hmk hneg => ?_
  refine (tag_reads input k).bind fun tag n hkn htag => ?_
  exact Advances.orStuck .reversedSpan (Identifier.exists_new? hneg htag (hmk.trans hkn))

theorem spaces_advances (input : Text) (m : Nat) : spaces.Advances input m fun _ _ => True :=
  Advances.map (Advances.many fun _ => Advances.terminal _ _ _ _)

theorem clause_advances (input : Text) (m : Nat) : clause.Advances input m fun _ _ => True := by
  refine Advances.sequence ?_
  refine (spaces_advances input m).bind fun _ i _ _ => ?_
  refine (binaryOp_reads input i).bind fun op j _ _ => ?_
  refine (spaces_advances input j).bind fun _ k _ _ => ?_
  exact (identifier_reads input k).bind fun x n _ _ => Advances.pure trivial

theorem query_reads (input : Text) : query.Reads input := by
  refine fun m => Advances.memoized .query (Advances.sequence ?_)
  refine Advances.cursor.bind fun start i _ hstart => ?_
  obtain ⟨rfl, rfl⟩ := hstart
  refine (identifier_reads input i).bind fun head j hij _ => ?_
  refine (Advances.many (clause_advances input)).bind fun rest k hjk _ => ?_
  refine Advances.cursor.bind fun stop n _ hstop => ?_
  obtain ⟨rfl, rfl⟩ := hstop
  obtain ⟨span, hspan⟩ := (hij.trans hjk).exists_span
  have hlast : (orStuck .reversedSpan (Span.ofOffsets? i n)).Advances input n
      fun span n => Span.ofOffsets? i n = some span :=
    Advances.orStuck .reversedSpan ⟨span, hspan, hspan⟩
  exact hlast.bind fun span n _ hspan =>
    Advances.pure (show Span.ofOffsets? i n = some span from hspan)

end Grammar

/-- **Every rule advances on every text**, whatever entries its memo table has, as long as they
lead forward. -/
theorem Rule.advances (rule : Rule) (input : Text) (m : Nat) :
    rule.action.Advances input m fun x n => x.Spans m n := by
  cases rule with
  | query => exact Action.Advances.map (Grammar.query_reads input m)
  | identifier => exact Action.Advances.map (Grammar.identifier_reads input m)
  | negation => exact Action.Advances.map (Grammar.negation_reads input m)
  | binaryOp => exact Action.Advances.map (Grammar.binaryOp_reads input m)
  | tag => exact Action.Advances.map (Grammar.tag_reads input m)
  | contemporaryMeaning => exact Action.Advances.map (Grammar.category_reads _ input m)
  | syntacticFunction => exact Action.Advances.map (Grammar.category_reads _ input m)

/-! ### Expressions -/

/-- If the value is a node, it says that it was read from `m` to `n`. -/
def Value.Spans (m : Nat) (v : Value) (n : Nat) : Prop := ∀ x, v = .node x → x.Spans m n

@[simp] theorem Value.spans_node {x : Node} : (Value.node x).Spans m n ↔ x.Spans m n :=
  ⟨fun h => h x rfl, fun h _ hx => Value.node.inj hx ▸ h⟩

@[simp] theorem Value.spans_list (vs : List Value) : (Value.list vs).Spans m n := by
  rintro _ ⟨⟩

theorem Value.ofKind?_eq_some_iff {kind : NodeKind} {v : Value}
    {a : { x : Node // x.kind = kind }} : v.ofKind? kind = some a ↔ v = .node a.val := by
  cases v with
  | node x => exact Fragment.ofNode?_eq_some_iff.trans (by simp [Fragment.toNode])
  | list vs | absent | empty | moved => simp [Value.ofKind?]

namespace Expr

open TagQuery.Action

/-- The value of a terminal is a node for the place that it was read from. -/
theorem terminal_advances (rule : Rule) (token : Token) (text : Text) (accepts : Text → Bool) :
    ((fun span => Value.node (.negation span)) <$> terminal rule token text accepts).Advances
      input m (Value.Spans m) :=
  .map ((Advances.terminal rule token text accepts).mono fun span n hspan =>
    Value.spans_node.2 (show (Node.negation span).Spans m n from hspan))

mutual

/-- **Every expression without moves of its own advances**, those with memo entries of their own
included. -/
theorem advances (input : Text) : (e : Expr) → e.moves = 0 → ∀ m,
    e.eval.Advances input m (Value.Spans m)
  | .literal .., _, _ => terminal_advances _ _ _ _
  | .phrase .., _, _ => terminal_advances _ _ _ _
  | .rule r, _, m => .map ((r.advances input m).mono fun _ _ => Value.spans_node.2)
  | .chain parts, h, _ =>
    .map ((Advances.chain (advancesAll input parts h)).mono fun vs _ _ => Value.spans_list vs)
  | .seq parts, h, _ =>
    .map ((Advances.chain (advancesAll input parts h)).sequence.mono
      fun vs _ _ => Value.spans_list vs)
  | .choice parts, h, m => .choice fun x hx => advancesAll input parts h x hx m
  | .many part, h, _ =>
    .map ((Advances.many (advances input part h)).mono fun vs _ _ => Value.spans_list vs)
  | .opt part, h, m => by
    -- an option that is not there is no node
    refine .map ((advances input part h m).optional.mono fun v n hv => ?_)
    cases v with
    | none => rintro _ ⟨⟩
    | some v => exact hv
  | .memo r kind part, h, m => by
    refine .map ((Advances.memoized r ?_).mono fun _ _ => Value.spans_node.2)
    refine (advances input part h m).bind fun v n _ hv => Advances.ofOption fun a ha => ?_
    exact hv a.val (Value.ofKind?_eq_some_iff.1 ha)
  | .moveTo _, h, _ => by cases h
  | .empty, _, _ => .pure (by rintro _ ⟨⟩)
  | .fail, _, _ => .fail

theorem advancesAll (input : Text) : (parts : List Expr) → movesAll parts = 0 →
    ∀ x ∈ evalAll parts, ∀ m, x.Advances input m (Value.Spans m)
  | [], _ => by simp [evalAll]
  | part :: parts, h => by
    obtain ⟨h₁, h₂⟩ := Nat.add_eq_zero_iff.1 h
    intro x hx
    rcases List.mem_cons.1 hx with rfl | hx
    · exact advances input part h₁
    · exact advancesAll input parts h₂ x hx

end

end Expr

/-! ### Sessions -/

/-- The step does not fill the memo table by hand, and evaluates no expression that moves the cursor
to an offset of its own. -/
def Step.isForward : Step → Bool
  | .look | .run | .runRule _ | .moveTo _ | .expect .. | .lookup .. => true
  | .eval expr => expr.moves = 0
  | .store .. => false

namespace Parser

variable {p : Parser}

/-- The memo table of the parser leads forward. -/
def Forward (p : Parser) : Prop := p.state.Forward p.input

theorem forward_new (s : String) (memoize : Bool) : (Parser.new s memoize).Forward :=
  State.Forward.initial s.toList

/-- The list of calls has no part in this. -/
theorem Forward.calls (h : p.Forward) (calls : List Call) :
    State.Forward p.input { p.state with calls } :=
  h.of_find? fun _ _ => rfl

theorem forward_drive {fits : α → Nat → Prop} {top : Action α} (p : Parser)
    (h : top.Advances p.input 0 fits) :
    ∃ verdict q, p.drive top = (verdict, q) ∧ (∀ e, verdict ≠ .stuck e) ∧ q.Forward := by
  obtain ⟨a, t, ht, ha, -⟩ | ⟨t, ht, ha⟩ := h (p.restart.context 0) p.restart.state rfl
    (p.restart.size_lt_rounds 0) rfl (State.Forward.initial p.input)
  · rw [drive_of_matched ht]
    by_cases hstop : t.cursor = p.input.size
    · exact ⟨_, _, if_pos hstop, by simp, ha.forward⟩
    · -- recording that the end was missing changes no entry
      have hend : (expectEnd t).Forward p.input :=
        ha.forward.of_find? fun _ _ => by rw [memo_expectEnd]
      exact ⟨_, _, if_neg hstop, by simp, hend⟩
  · exact ⟨_, _, drive_of_failed ht, by simp, ha.forward⟩

theorem exists_step_eval (h : p.Forward) {e : Expr} (he : e.moves = 0) :
    ∃ r, p.step (.eval e) = .ok r ∧ r.parser.Forward ∧
      p.input.Reaches p.state.cursor r.parser.state.cursor := by
  obtain ⟨v, t, ht, ha, -⟩ | ⟨t, ht, ha⟩ := e.advances p.input he p.state.cursor
    (p.context e.moves) { p.state with calls := [] } rfl (p.size_lt_rounds e.moves) rfl (h.calls [])
  · exact ⟨p.report (.matched v) t, by simp only [step, ht], ha.forward, ha.reaches⟩
  · exact ⟨p.report .failed t, by simp only [step, ht], ha.forward, ha.reaches⟩

/-- **One step**: it does not get stuck, and the table leads forward as before. -/
theorem forward_step (p : Parser) (x : Step) (h : p.Forward) (hx : x.isForward) :
    ∃ r, p.step x = .ok r ∧ r.parser.Forward := by
  cases x with
  | look => exact ⟨_, rfl, h.calls []⟩
  | moveTo n => exact ⟨_, rfl, (h.calls []).moveTo n⟩
  | expect n e => exact ⟨_, rfl, (h.calls []).expect n e⟩
  | lookup rule n => exact ⟨_, rfl, (h.calls []).lookup p.memoize rule n⟩
  | store rule n entry => cases hx
  | run =>
    obtain ⟨verdict, q, hd, hne, hq⟩ := p.forward_drive (Grammar.query_reads p.input 0)
    refine ⟨⟨.query verdict, [], q⟩, ?_, hq⟩
    simp only [step, run, hd]
  | runRule rule =>
    obtain ⟨verdict, q, hd, hne, hq⟩ := p.forward_drive (rule.advances p.input 0)
    refine ⟨⟨.node verdict, [], q⟩, ?_, hq⟩
    simp only [step, runRule, hd]
  | eval e =>
    obtain ⟨r, hr, hforward, -⟩ := exists_step_eval h (of_decide_eq_true hx)
    exact ⟨r, hr, hforward⟩

end Parser

/-- **No step gets stuck, and the cursor only moves forward.**  Whatever a new parser has been asked
to do, fillings of its memo table by hand and moves within expressions apart, none of it gets stuck.
The next evaluation of an expression does not either; it leaves the cursor where it is or further
on, at a boundary of the input if it is at one, and exactly where it is if that is past the end or
inside a character. -/
theorem steps_advance (s : String) (memoize : Bool) (xs : List Step)
    (hxs : ∀ x ∈ xs, x.isForward) :
    ∃ rs, (Parser.new s memoize).steps xs = (rs, none) ∧ rs.length = xs.length ∧
      ∀ e : Expr, e.moves = 0 →
        let p := (Parser.new s memoize).after rs
        ∃ r, p.step (.eval e) = .ok r ∧ p.state.cursor ≤ r.parser.state.cursor ∧
          (Text.IsBoundary s.toList p.state.cursor →
            Text.IsBoundary s.toList r.parser.state.cursor) ∧
          (¬ Text.IsBoundary s.toList p.state.cursor →
            r.parser.state.cursor = p.state.cursor) := by
  obtain ⟨rs, hrs, hforward⟩ :=
    Parser.exists_steps Parser.forward_step (Parser.forward_new s memoize) hxs
  refine ⟨rs, hrs, Parser.length_of_steps hrs, fun e he => ?_⟩
  obtain ⟨r, hr, -, hreach⟩ := Parser.exists_step_eval hforward he
  rw [(Parser.input_after hrs).1] at hreach
  exact ⟨r, hr, hreach.le, hreach.isBoundary, hreach.eq_of_not_isBoundary⟩

/-- Entries of other kinds under the keys of two rules, and a cursor inside a character: there the
expression that is evaluated next reads nothing at all. -/
theorem steps_advance_inside :
    let xs : List Step := [.run, .moveTo 0, .eval (.memo .query .negation (.literal .query "é")),
      .moveTo 0, .eval (.memo .tag .negation (.opt (.literal .query "é"))), .lookup .tag 0,
      .moveTo 1]
    let e : Expr := .many (.choice [.rule .query, .memo .tag .tag (.rule .query), .empty])
    (∀ x ∈ xs, x.isForward) ∧ e.moves = 0 ∧
      ∃ rs, (Parser.new "é-booster" true).steps xs = (rs, none) ∧
        ((Parser.new "é-booster" true).after rs).state.cursor = 1 ∧
        ∃ r, ((Parser.new "é-booster" true).after rs).step (.eval e) = .ok r ∧
          r.parser.state.cursor = 1 := by
  intro xs e
  have hxs : ∀ x ∈ xs, x.isForward := by decide
  obtain ⟨rs, hrs, -, heval⟩ := steps_advance "é-booster" true xs hxs
  obtain ⟨r, hr, -, -, hstay⟩ := heval e rfl
  have hcursor : ((Parser.new "é-booster" true).after rs).state.cursor = 1 := by
    have h : ((Parser.new "é-booster" true).after
        ((Parser.new "é-booster" true).steps xs).1).state.cursor = 1 := by decide +kernel
    rwa [hrs] at h
  have hinside : ¬ Text.IsBoundary "é-booster".toList 1 := by decide
  rw [hcursor] at hstay
  exact ⟨hxs, rfl, rs, hrs, hcursor, r, hr, hstay hinside⟩

end TagQuery
