import TagQuery.Proofs.Run
import TagQuery.Proofs.Settling
import TagQuery.Query.Shift

/-!
# The same text further to the right

A rule sees a text from the cursor on only.  Evaluated at the offset `d` of a text, it does what it
does at the start of the text that follows there, with every offset displaced by `d`.

`Action.Displaced` compares a run over a text with one over the same text `d` bytes further to the
right.  What the two keep is a relation of their states (`State.Displaced`): cursor, memo table and
furthest failure are displaced, except that a record of failures in which nothing has been recorded
is at offset 0 in both.

* One rule for each way to put actions together, then one for each rule of the grammar
  (`Rule.displaced`).
* The bound on the number of rounds is no part of the comparison, so a run that gets stuck is
  comparable to any other.  In the end no run gets stuck, since every rule settles
  (`Rule.settles`).
-/

namespace TagQuery

variable {α β : Type} {input : Text} {d m n : Nat}

/-! ### Displaced data -/

/-- The entry with its end and its node moved to the right by `d` bytes. -/
def Entry.shift (d : Nat) (entry : Entry) : Entry :=
  ⟨entry.result.map (Node.shift d), entry.stop + d⟩

/-- The failures moved to the right by `d` bytes. -/
def Furthest.shift (d : Nat) (f : Furthest) : Furthest := ⟨f.offset + d, f.expected⟩

theorem Furthest.record_shift (f : Furthest) (d n : Nat) (e : Expected) :
    (f.shift d).record (n + d) e = (f.record n e).shift d := by
  simp only [record, shift, Nat.add_lt_add_iff_right, Nat.add_right_cancel_iff]
  split
  · rfl
  · split <;> rfl

theorem Furthest.record_empty (n : Nat) (e : Expected) : empty.record n e = ⟨n, [e]⟩ := by
  cases n with
  | zero => rfl
  | succ n => exact record_of_lt e (Nat.succ_pos n)

theorem Text.slice?_append_add (u t : Text) (m n : Nat) :
    (u ++ t).slice? (m + u.size) (n + u.size) = t.slice? m n := by
  simp only [slice?, drop?_append_add, Nat.add_le_add_iff_right, Nat.add_sub_add_right]

theorem Span.ofOffsets?_shift (hm : m + d ≤ maxOffset) (hn : n + d ≤ maxOffset) :
    ofOffsets? (m + d) (n + d) = (ofOffsets? m n).map (shift d) := by
  simp only [ofOffsets?, limit_of_le hm, limit_of_le hn, limit_of_le (Nat.le_of_add_right_le hm),
    limit_of_le (Nat.le_of_add_right_le hn), new?, Nat.add_le_add_iff_right]
  split <;> rfl

theorem Identifier.new?_shift (negation : Option Span) (tag : TagMatch) (d : Nat) :
    new? (negation.map (Span.shift d)) (tag.shift d) = (new? negation tag).map (shift d) := by
  have hstart : ((negation.map (Span.shift d)).getD (tag.shift d).span).start =
      (negation.getD tag.span).start + d := by
    cases negation <;> rfl
  have hstop : (tag.shift d).span.stop = tag.span.stop + d := rfl
  simp only [new?, hstart, hstop, Span.new?, Nat.add_le_add_iff_right]
  split <;> rfl

/-! ### The comparison -/

/-- The second context has `d` more bytes before the text. -/
structure Context.Displaced (input : Text) (d : Nat) (c c' : Context) : Prop where
  input_eq : c.input = input
  exists_front : ∃ front : Text, c'.input = front ++ input ∧ front.size = d
  memoize_eq : c'.memoize = c.memoize

/-- The second state is the first one `d` bytes further to the right: the cursor, the failures if
there are any, and the keys and the entries of the memo table.  The first one stays within the
text. -/
structure State.Displaced (input : Text) (d : Nat) (s t : State) : Prop where
  cursor : t.cursor = s.cursor + d
  furthest : t.furthest = s.furthest.shift d ∨ s.furthest = .empty ∧ t.furthest = .empty
  find? : ∀ rule n, t.memo.find? rule (n + d) = (s.memo.find? rule n).map (Entry.shift d)
  find?_lt : ∀ rule n, n < d → t.memo.find? rule n = none
  cursor_le : s.cursor ≤ input.size
  stop_le : ∀ rule n entry, s.memo.find? rule n = some entry → entry.stop ≤ input.size

/-- The replies end in the same way, the second one with the value that `f` makes of the first one
and a state displaced by `d`.  A reply that is stuck compares to any. -/
def Reply.Displaced (input : Text) (d : Nat) (f : α → α) (r r' : Reply α) : Prop :=
  (∃ a s t, r = .matched a s ∧ r' = .matched (f a) t ∧ s.Displaced input d t) ∨
    (∃ s t, r = .failed s ∧ r' = .failed t ∧ s.Displaced input d t) ∨
      ∃ e, r = .stuck e ∨ r' = .stuck e

/-- What `x` does over the text, `y` does over the text `d` bytes further to the right. -/
def Action.Displaced (input : Text) (d : Nat) (f : α → α) (x y : Action α) : Prop :=
  ∀ c c' s t, Context.Displaced input d c c' → s.Displaced input d t →
    (x c s).Displaced input d f (y c' t)

namespace State.Displaced

variable {s t : State}

theorem initial (input : Text) (d : Nat) :
    State.initial.Displaced input d (State.initial.moveTo d) where
  cursor := (Nat.zero_add d).symm
  furthest := Or.inr ⟨rfl, rfl⟩
  find? rule n := (MemoTable.find?_empty rule (n + d)).trans
    (congrArg (Option.map _) (MemoTable.find?_empty rule n).symm)
  find?_lt rule n _ := MemoTable.find?_empty rule n
  cursor_le := Nat.zero_le _
  stop_le rule n entry h := by
    rw [State.initial, MemoTable.find?_empty] at h
    cases h

theorem moveTo (h : s.Displaced input d t) (hn : n ≤ input.size) :
    (s.moveTo n).Displaced input d (t.moveTo (n + d)) :=
  { h with cursor := rfl, cursor_le := hn }

theorem rewind {s' t' : State} (h : s.Displaced input d t) (h' : s'.Displaced input d t') :
    (s'.moveTo s.cursor).Displaced input d (t'.moveTo t.cursor) :=
  h.cursor ▸ h'.moveTo h.cursor_le

theorem expect (h : s.Displaced input d t) (n : Nat) (e : Expected) :
    (s.expect n e).Displaced input d (t.expect (n + d) e) := by
  refine { h with furthest := Or.inl ?_ }
  rw [furthest_expect, furthest_expect]
  rcases h.furthest with hf | ⟨hs, ht⟩
  · rw [hf, Furthest.record_shift]
  · rw [hs, ht, Furthest.record_empty, Furthest.record_empty]
    rfl

theorem lookup (h : s.Displaced input d t) (memoize : Bool) (rule : Rule) (n : Nat) :
    (t.lookup memoize rule (n + d)).1 = (s.lookup memoize rule n).1.map (Entry.shift d) ∧
      (s.lookup memoize rule n).2.Displaced input d (t.lookup memoize rule (n + d)).2 := by
  constructor
  · cases memoize with
    | false => rfl
    | true => simpa using h.find? rule n
  · constructor
    · simpa using h.cursor
    · simpa using h.furthest
    · simpa using h.find?
    · simpa using h.find?_lt
    · simpa using h.cursor_le
    · simpa using h.stop_le

theorem store (h : s.Displaced input d t) (memoize : Bool) (rule : Rule) (n : Nat)
    (result : Option Node) :
    (s.store memoize rule n ⟨result, s.cursor⟩).Displaced input d
      (t.store memoize rule (n + d) ⟨result.map (Node.shift d), t.cursor⟩) := by
  cases memoize with
  | false => exact ⟨h.cursor, h.furthest, h.find?, h.find?_lt, h.cursor_le, h.stop_le⟩
  | true =>
    refine ⟨h.cursor, h.furthest, fun rule' n' => ?_, fun rule' n' hn => ?_, h.cursor_le,
      fun rule' n' entry he => ?_⟩
    · simp only [memo_store_true, MemoTable.find?_insert, Nat.add_right_cancel_iff]
      split
      · rw [h.cursor]
        rfl
      · exact h.find? rule' n'
    · rw [memo_store_true, MemoTable.find?_insert, if_neg (by omega)]
      exact h.find?_lt rule' n' hn
    · rcases find?_store_cases he with ⟨-, -, rfl⟩ | he
      · exact h.cursor_le
      · exact h.stop_le rule' n' entry he

end State.Displaced

namespace Reply.Displaced

variable {f : α → α} {s t : State}

theorem matched (a : α) (h : s.Displaced input d t) :
    Displaced input d f (.matched a s) (.matched (f a) t) := Or.inl ⟨a, s, t, rfl, rfl, h⟩

theorem failed (h : s.Displaced input d t) : Displaced input d f (.failed s) (.failed t) :=
  Or.inr (Or.inl ⟨s, t, rfl, rfl, h⟩)

theorem stuck_left (e : Fault) (r : Reply α) : Displaced input d f (.stuck e) r :=
  Or.inr (Or.inr ⟨e, Or.inl rfl⟩)

theorem stuck_right (e : Fault) (r : Reply α) : Displaced input d f r (.stuck e) :=
  Or.inr (Or.inr ⟨e, Or.inr rfl⟩)

theorem map {r r' : Reply α} {g g' : α → β} {f' : β → β} (h : r.Displaced input d f r')
    (hg : ∀ a, g' (f a) = f' (g a)) : (r.map g).Displaced input d f' (r'.map g') := by
  rcases h with ⟨a, s, t, rfl, rfl, h⟩ | ⟨s, t, rfl, rfl, h⟩ | ⟨e, rfl | rfl⟩
  · rw [map_matched, map_matched, hg]
    exact matched _ h
  · exact failed h
  · exact stuck_left e _
  · exact stuck_right e _

end Reply.Displaced

/-! ### One rule for each way to put actions together -/

namespace Action

namespace Displaced

variable {f : α → α} {x y : Action α}

theorem pure (a : α) : Displaced input d f (pure a) (pure (f a)) :=
  fun _ _ _ _ _ hs => .matched a hs

theorem fail : Displaced input d f fail fail := fun _ _ _ _ _ hs => .failed hs

theorem orStuck (e : Fault) (o : Option α) :
    Displaced input d f (orStuck e o) (orStuck e (o.map f)) := by
  cases o with
  | none => exact fun _ _ _ _ _ _ => .stuck_left e _
  | some a => exact pure a

theorem terminal (hmax : input.size + d ≤ Span.maxOffset) (rule : Rule) (token : Token)
    (text : Text) (accepts : Text → Bool) :
    Displaced input d (Span.shift d) (terminal rule token text accepts)
      (Action.terminal rule token text accepts) := by
  intro c c' s t hc hs
  obtain ⟨front, hfront, rfl⟩ := hc.exists_front
  have hslice : c'.input.slice? t.cursor (t.cursor + text.size) =
      c.input.slice? s.cursor (s.cursor + text.size) := by
    rw [hfront, hc.input_eq, hs.cursor, Nat.add_right_comm, Text.slice?_append_add]
  simp only [Action.terminal, hslice]
  split
  · rename_i h
    obtain ⟨w, hw, -⟩ := (Option.any_eq_true ..).1 h
    have hle := hc.input_eq ▸ Text.le_size_of_slice? hw
    rw [hs.cursor, Nat.add_right_comm,
      ← Span.shift_ofLength (Nat.le_trans (Nat.add_le_add_right hle _) hmax)]
    exact .matched _ (hs.moveTo hle)
  · rw [hs.cursor]
    exact .failed (hs.expect _ _)

theorem map {g : α → β} {f' : β → β} (h : x.Displaced input d f y)
    (hg : ∀ a, g (f a) = f' (g a)) : (g <$> x).Displaced input d f' (g <$> y) :=
  fun c c' s t hc hs => (h c c' s t hc hs).map hg

theorem bind {g g' : α → Action β} {f' : β → β} (h : x.Displaced input d f y)
    (hg : ∀ a, (g a).Displaced input d f' (g' (f a))) :
    (x >>= g).Displaced input d f' (y >>= g') := by
  intro c c' s t hc hs
  rw [bind_apply, bind_apply]
  rcases h c c' s t hc hs with ⟨a, s', t', hx, hy, h'⟩ | ⟨s', t', hx, hy, h'⟩ | ⟨e, hx | hy⟩
  · rw [hx, hy]
    exact hg a c c' s' t' hc h'
  · rw [hx, hy]
    exact .failed h'
  · rw [hx]
    exact .stuck_left e _
  · rw [hy]
    exact .stuck_right e _

/-- The offset of the cursor is displaced too, and lies within the text. -/
theorem bind_cursor {g g' : Nat → Action α}
    (hg : ∀ n, n ≤ input.size → (g n).Displaced input d f (g' (n + d))) :
    (cursor >>= g).Displaced input d f (cursor >>= g') := by
  intro c c' s t hc hs
  simp only [bind_apply, cursor_apply, Reply.andThen_matched, hs.cursor]
  exact hg s.cursor hs.cursor_le c c' s t hc hs

theorem sequence (h : x.Displaced input d f y) :
    (sequence x).Displaced input d f (Action.sequence y) := by
  intro c c' s t hc hs
  unfold Action.sequence
  rcases h c c' s t hc hs with ⟨a, s', t', hx, hy, h'⟩ | ⟨s', t', hx, hy, h'⟩ | ⟨e, hx | hy⟩
  · rw [hx, hy]
    exact .matched a h'
  · rw [hx, hy]
    exact .failed (hs.rewind h')
  · rw [hx]
    exact .stuck_left e _
  · rw [hy]
    exact .stuck_right e _

theorem optional (h : x.Displaced input d f y) :
    (optional x).Displaced input d (Option.map f) (Action.optional y) := by
  intro c c' s t hc hs
  rw [optional_apply, optional_apply]
  rcases h.sequence c c' s t hc hs with
    ⟨a, s', t', hx, hy, h'⟩ | ⟨s', t', hx, hy, h'⟩ | ⟨e, hx | hy⟩
  · rw [hx, hy]
    exact .matched (some a) h'
  · rw [hx, hy]
    exact .matched none h'
  · rw [hx]
    exact .stuck_left e _
  · rw [hy]
    exact .stuck_right e _

theorem choice {xs : List (Action α)} (h : ∀ x ∈ xs, x.Displaced input d f x) :
    (choice xs).Displaced input d f (Action.choice xs) := by
  induction xs with
  | nil => exact fail
  | cons x xs ih =>
    intro c c' s t hc hs
    have hxs := ih fun y hy => h y (List.mem_cons_of_mem x hy)
    rw [choice_cons_apply, choice_cons_apply]
    rcases h x List.mem_cons_self c c' s t hc hs with
      ⟨a, s', t', hx, hy, h'⟩ | ⟨s', t', hx, hy, h'⟩ | ⟨e, hx | hy⟩
    · rw [hx, hy]
      exact .matched a h'
    · rw [hx, hy]
      exact hxs c c' _ _ hc (hs.rewind h')
    · rw [hx]
      exact .stuck_left e _
    · rw [hy]
      exact .stuck_right e _

/-- The two repetitions may have different bounds: as long as both go on, they go on together. -/
theorem manyUpTo (h : x.Displaced input d f y) (limit limit' : Nat) :
    (manyUpTo x limit).Displaced input d (List.map f) (Action.manyUpTo y limit') := by
  induction limit generalizing limit' with
  | zero => exact fun _ _ _ _ _ _ => .stuck_left .endless _
  | succ limit ih =>
    cases limit' with
    | zero => exact fun _ _ _ _ _ _ => .stuck_right .endless _
    | succ limit' =>
      intro c c' s t hc hs
      rw [manyUpTo_succ_apply, manyUpTo_succ_apply]
      rcases h c c' s t hc hs with
        ⟨a, s', t', hx, hy, h'⟩ | ⟨s', t', hx, hy, h'⟩ | ⟨e, hx | hy⟩
      · -- one cursor has moved exactly if the other one has
        simp only [hx, hy, h'.cursor, hs.cursor, Nat.add_right_cancel_iff]
        split
        · exact .matched [a] h'
        · exact (ih limit' c c' s' t' hc h').map fun _ => rfl
      · rw [hx, hy]
        exact .matched [] (hs.rewind h')
      · rw [hx]
        exact .stuck_left e _
      · rw [hy]
        exact .stuck_right e _

theorem many (h : x.Displaced input d f y) :
    (many x).Displaced input d (List.map f) (Action.many y) :=
  fun c c' s t hc hs => h.manyUpTo c.rounds c'.rounds c c' s t hc hs

/-- An answer of the memo table is displaced, and so is what is stored. -/
theorem memoized [Fragment α] (h : x.Displaced input d f y)
    (hf : ∀ a : Node, Fragment.ofNode? (a.shift d) = (Fragment.ofNode? a).map f) (rule : Rule) :
    (memoized rule x).Displaced input d f (Action.memoized rule y) := by
  intro c c' s t hc hs
  obtain ⟨hfound, hs₁⟩ := hs.lookup c.memoize rule s.cursor
  rw [← hs.cursor, ← hc.memoize_eq] at hfound
  rw [← hs.cursor] at hs₁
  cases hl : (s.lookup c.memoize rule s.cursor).1 with
  | some entry =>
    rw [hc.memoize_eq, hl] at hfound
    rw [memoized_of_lookup_some hl, memoized_of_lookup_some (hc.memoize_eq ▸ hfound),
      replay_apply, replay_apply, hc.memoize_eq]
    have hle := hs.stop_le rule s.cursor entry (State.fst_lookup_eq_some_iff.1 hl).2
    -- a node of another type is refused on both sides
    have hresult : (entry.shift d).result.bind (Fragment.ofNode? (α := α)) =
        (entry.result.bind Fragment.ofNode?).map f := by
      rw [Entry.shift, Option.bind_map, Option.map_bind]
      exact congrArg _ (funext hf)
    rw [hresult]
    cases entry.result.bind (Fragment.ofNode? (α := α)) with
    | none => exact .failed (hs₁.moveTo hle)
    | some a => exact .matched a (hs₁.moveTo hle)
  | none =>
    rw [hc.memoize_eq, hl] at hfound
    rw [memoized_of_lookup hl, memoized_of_lookup (hc.memoize_eq ▸ hfound), hc.memoize_eq]
    rcases h c c' _ _ hc hs₁ with
      ⟨a, s', t', hx, hy, h'⟩ | ⟨s', t', hx, hy, h'⟩ | ⟨e, hx | hy⟩
    · have hnode : (Fragment.toNode a).shift d = Fragment.toNode (f a) := by
        refine Fragment.ofNode?_eq_some_iff.1 ?_
        rw [hf, Fragment.ofNode?_toNode, Option.map_some]
      simp only [hx, hy, ← hnode]
      rw [hs.cursor]
      exact .matched a (h'.store c.memoize rule s.cursor _)
    · rw [hx, hy, hs.cursor]
      exact .failed (h'.store c.memoize rule s.cursor none)
    · rw [hx]
      exact .stuck_left e _
    · rw [hy]
      exact .stuck_right e _

end Displaced

end Action

/-! ### The rules of the grammar -/

namespace Grammar

open TagQuery.Action

variable (hmax : input.size + d ≤ Span.maxOffset)
include hmax

theorem negation_displaced : negation.Displaced input d (Span.shift d) negation :=
  (Displaced.terminal hmax _ _ _ _).memoized (fun a => by cases a <;> rfl) _

theorem binaryOp_displaced : binaryOp.Displaced input d (Operator.shift d) binaryOp := by
  refine (Displaced.choice fun x hx => ?_).memoized (fun a => by cases a <;> rfl) _
  obtain ⟨op, -, rfl⟩ := List.mem_map.1 hx
  exact (Displaced.terminal hmax _ _ _ _).map fun _ => rfl

theorem category_displaced (c : Category) :
    (category c).Displaced input d (TagMatch.shift d) (category c) := by
  refine (Displaced.choice fun x hx => ?_).memoized (fun a => by cases a <;> rfl) _
  obtain ⟨tag, -, rfl⟩ := List.mem_map.1 hx
  exact (Displaced.terminal hmax _ _ _ _).map fun _ => rfl

theorem tag_displaced : Grammar.tag.Displaced input d (TagMatch.shift d) Grammar.tag := by
  refine (Displaced.choice fun x hx => ?_).memoized (fun a => by cases a <;> rfl) _
  obtain ⟨c, -, rfl⟩ := List.mem_map.1 hx
  exact category_displaced hmax c

theorem identifier_displaced :
    identifier.Displaced input d (Identifier.shift d) identifier := by
  refine Displaced.memoized (.sequence ?_) (fun a => by cases a <;> rfl) _
  refine (negation_displaced hmax).optional.bind fun negation => ?_
  refine (tag_displaced hmax).bind fun tag => ?_
  rw [Identifier.new?_shift]
  exact .orStuck _ _

theorem spaces_displaced : Grammar.spaces.Displaced input d id Grammar.spaces :=
  (Displaced.terminal hmax _ _ _ _).many.map fun _ => rfl

theorem clause_displaced : clause.Displaced input d
    (fun clause => (clause.1.shift d, clause.2.shift d)) clause := by
  refine .sequence ((spaces_displaced hmax).bind fun _ => ?_)
  refine (binaryOp_displaced hmax).bind fun op => ?_
  refine (spaces_displaced hmax).bind fun _ => ?_
  exact (identifier_displaced hmax).bind fun x => .pure (op, x)

theorem query_displaced : query.Displaced input d (Query.shift d) query := by
  refine Displaced.memoized (.sequence ?_) (fun a => by cases a <;> rfl) _
  refine .bind_cursor fun start hstart => ?_
  refine (identifier_displaced hmax).bind fun head => ?_
  refine (clause_displaced hmax).many.bind fun rest => ?_
  refine .bind_cursor fun stop hstop => ?_
  rw [Span.ofOffsets?_shift (by omega) (by omega)]
  exact Displaced.bind (.orStuck _ _) fun span => .pure (Query.mk head rest span)

end Grammar

/-- **Every rule does the same further to the right.** -/
theorem Rule.displaced (hmax : input.size + d ≤ Span.maxOffset) (rule : Rule) :
    rule.action.Displaced input d (Node.shift d) rule.action := by
  cases rule with
  | query => exact (Grammar.query_displaced hmax).map fun _ => rfl
  | identifier => exact (Grammar.identifier_displaced hmax).map fun _ => rfl
  | negation => exact (Grammar.negation_displaced hmax).map fun _ => rfl
  | binaryOp => exact (Grammar.binaryOp_displaced hmax).map fun _ => rfl
  | tag => exact (Grammar.tag_displaced hmax).map fun _ => rfl
  | contemporaryMeaning | syntacticFunction =>
    exact (Grammar.category_displaced hmax _).map fun _ => rfl

/-- A rule does not get stuck on a new parser. -/
theorem Rule.ne_stuck_newAt (rule : Rule) (s : String) (memoize : Bool) (n : Nat) (e : Fault) :
    let p := Parser.newAt s memoize n
    rule.action (p.context 0) p.state ≠ .stuck e := by
  intro p
  obtain ⟨o, ho, -⟩ := rule.settles s.toList n
  obtain ⟨t, ht, -⟩ := Parser.exists_newAt ho memoize
  rw [ht]
  exact o.reply_ne_stuck t e

/-- **Rules see only the text from the cursor on.**  A rule evaluated on a new parser with the
cursor at an offset, and the rule evaluated on a new parser for the text that follows there, both
fail, or both match with the same node but for its place; and cursor, failures and memo table of
the one are those of the other further to the right. -/
theorem rule_displaced (rule : Rule) (memoize : Bool) (s b : String) (o : Nat)
    (hsize : Text.size s.toList ≤ Span.maxOffset) (hcut : Text.drop? o s.toList = some b.toList) :
    ∃ t t' : State, t.Displaced b.toList o t' ∧
      let p := Parser.newAt s memoize o
      let q := Parser.new b memoize
      (rule.action (q.context 0) q.state = .failed t ∧
          rule.action (p.context 0) p.state = .failed t') ∨
        ∃ x : Node, rule.action (q.context 0) q.state = .matched x t ∧
          rule.action (p.context 0) p.state = .matched (x.shift o) t' := by
  obtain ⟨front, hfront, rfl⟩ := Text.drop?_eq_some_iff.1 hcut
  have hmax : Text.size b.toList + front.size ≤ Span.maxOffset := by
    rw [hfront, Text.size_append] at hsize
    omega
  have hc : Context.Displaced b.toList front.size ((Parser.new b memoize).context 0)
      ((Parser.newAt s memoize front.size).context 0) := ⟨rfl, ⟨front, hfront, rfl⟩, rfl⟩
  rcases rule.displaced hmax _ _ _ _ hc (.initial _ _) with
    ⟨x, t, t', hq, hp, h⟩ | ⟨t, t', hq, hp, h⟩ | ⟨e, hq | hp⟩
  · exact ⟨t, t', h, Or.inr ⟨x, hq, hp⟩⟩
  · exact ⟨t, t', h, Or.inl ⟨hq, hp⟩⟩
  · exact absurd hq (rule.ne_stuck_newAt b memoize 0 e)
  · exact absurd hp (rule.ne_stuck_newAt s memoize front.size e)

/-- The query behind `é|` is that of the text behind `é|`, three bytes further to the right. -/
theorem rule_displaced_accent :
    let p := Parser.newAt "é|-booster & SUBJECT x" true 3
    let q := Parser.new "-booster & SUBJECT x" true
    ∃ (x : Node) (t t' : State), t.Displaced "-booster & SUBJECT x".toList 3 t' ∧
      Rule.query.action (q.context 0) q.state = .matched x t ∧
      Rule.query.action (p.context 0) p.state = .matched (x.shift 3) t' := by
  have hmatched : (match Rule.query.action ((Parser.new "-booster & SUBJECT x" true).context 0)
        (Parser.new "-booster & SUBJECT x" true).state with
      | .matched .. => true
      | _ => false) = true := by
    decide +kernel
  intro p q
  obtain ⟨t, t', h, ⟨hq, -⟩ | ⟨x, hq, hp⟩⟩ := rule_displaced .query true
    "é|-booster & SUBJECT x" "-booster & SUBJECT x" 3 (by decide +kernel) (by decide +kernel)
  · rw [hq] at hmatched
    cases hmatched
  · exact ⟨x, t, t', h, hq, hp⟩

end TagQuery
