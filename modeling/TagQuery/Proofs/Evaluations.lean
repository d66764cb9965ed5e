import TagQuery.Proofs.Diagnosis
import TagQuery.Proofs.History
import TagQuery.Proofs.Settling
import TagQuery.Proofs.Visits

/-!
# Each rule is evaluated once at each offset

What the rules visit follows the spelling of the text.  An operand visits its own rule, the `-` and
the tag with its categories, the second one if the tag is not of the first (`operandKeys`); a clause
visits the operator before that, and a query ends with a clause that fails (`QuerySpelling.keys`).

No key comes up twice: within an operand the rules differ, and the operands follow one another
(`QuerySpelling.nodup_keys`).  So a run finds no entry, and its memo table holds as many as there
were questions (`Parser.stats_drive`).  Counting the keys gives the exact number
(`evaluated_once`).
-/

namespace TagQuery

variable {α : Type} {input v w : Text} {m n : Nat} {k : MemoKey} {ks ls : List MemoKey}

/-! ### The keys of a text -/

/-- What an operand at `n` visits whose tag is at `m`, with the second category or without it. -/
def operandKeys (n m : Nat) (second : Bool) : List MemoKey :=
  (.identifier, n) :: (.negation, n) :: (.tag, m) :: (.contemporaryMeaning, m) ::
    if second then [(.syntacticFunction, m)] else []

namespace OperandSpelling

/-- What is visited while the operand at `n` is read. -/
def keys (n : Nat) (x : OperandSpelling) : List MemoKey :=
  operandKeys n (n + x.signSize) (x.tag.category = .syntacticFunction)

end OperandSpelling

namespace OperandGap

/-- What is visited in a text that begins at `n`. -/
def keys (n : Nat) (g : OperandGap) : List MemoKey := operandKeys n (g.place n) true

end OperandGap

namespace ClauseSpelling

/-- What is visited while the clause at `n` is read. -/
def keys (n : Nat) (x : ClauseSpelling) : List MemoKey :=
  (.binaryOp, n + x.before) :: x.operand.keys (n + x.lead)

/-- What is visited while clauses that begin at `n` are read. -/
def keysAll : Nat → List ClauseSpelling → List MemoKey
  | _, [] => []
  | n, x :: xs => x.keys n ++ keysAll (n + x.text.size) xs

end ClauseSpelling

namespace ClauseGap

/-- What is visited in a text that begins at `n`. -/
def keys (n : Nat) : ClauseGap → List MemoKey
  | operator before .. => [(.binaryOp, n + before)]
  | operand before _ after gap _ =>
    (.binaryOp, n + before) :: gap.keys (n + before + 1 + after)

end ClauseGap

namespace QuerySpelling

/-- What is visited while the query at `n` is read up to a gap. -/
def keys (n : Nat) (w : QuerySpelling) (g : ClauseGap) : List MemoKey :=
  (.query, n) :: (w.head.keys n ++
    (ClauseSpelling.keysAll (n + w.head.text.size) w.clauses ++ g.keys (n + w.text.size)))

end QuerySpelling

/-! ### No key comes up twice -/

/-- The keys are different from each other, begin at `n` or later, and none of them is that of a
query. -/
structure KeysFrom (n : Nat) (ks : List MemoKey) : Prop where
  nodup : ks.Nodup
  ne_query : ∀ k ∈ ks, k.1 ≠ .query
  le : ∀ k ∈ ks, n ≤ k.2

namespace KeysFrom

theorem append (h : KeysFrom n ks) (hlt : ∀ k ∈ ks, k.2 < m) (h' : KeysFrom m ls) (hnm : n ≤ m) :
    KeysFrom n (ks ++ ls) where
  nodup := by
    refine List.nodup_append.2 ⟨h.nodup, h'.nodup, ?_⟩
    rintro k hk l hl rfl
    exact Nat.not_lt.2 (h'.le k hl) (hlt k hk)
  ne_query k hk := (List.mem_append.1 hk).elim (h.ne_query k) (h'.ne_query k)
  le k hk := (List.mem_append.1 hk).elim (h.le k) fun hk => Nat.le_trans hnm (h'.le k hk)

theorem nodup_query (h : KeysFrom n ks) : ((.query, n) :: ks).Nodup :=
  List.nodup_cons.2 ⟨fun hk => h.ne_query _ hk rfl, h.nodup⟩

end KeysFrom

theorem mem_operandKeys {second : Bool} (h : k ∈ operandKeys n m second) :
    k.1 ≠ .query ∧ k.1 ≠ .binaryOp ∧ (k.2 = n ∨ k.2 = m) := by
  simp only [operandKeys, List.mem_cons, List.mem_ite_nil_right, List.not_mem_nil, or_false] at h
  rcases h with rfl | rfl | rfl | rfl | ⟨-, rfl⟩ <;> simp

theorem nodup_operandKeys (n m : Nat) (second : Bool) : (operandKeys n m second).Nodup := by
  cases second <;> simp [operandKeys]

theorem length_operandKeys (n m : Nat) (second : Bool) :
    (operandKeys n m second).length = 4 + if second then 1 else 0 := by
  cases second <;> rfl

theorem keysFrom_operator {second : Bool} {lo l : Nat} (hl : lo ≤ l) (hn : lo ≤ n) (hm : lo ≤ m) :
    KeysFrom lo ((.binaryOp, l) :: operandKeys n m second) where
  nodup := List.nodup_cons.2
    ⟨fun hk => (mem_operandKeys hk).2.1 rfl, nodup_operandKeys n m second⟩
  ne_query k hk := by
    rcases List.mem_cons.1 hk with rfl | hk
    · simp
    · exact (mem_operandKeys hk).1
  le k hk := by
    rcases List.mem_cons.1 hk with rfl | hk
    · exact hl
    · rcases (mem_operandKeys hk).2.2 with h | h <;> omega

namespace OperandSpelling

theorem keysFrom (n : Nat) (x : OperandSpelling) : KeysFrom n (x.keys n) where
  nodup := nodup_operandKeys ..
  ne_query k hk := (mem_operandKeys hk).1
  le k hk := by rcases (mem_operandKeys hk).2.2 with h | h <;> omega

theorem lt_of_mem_keys {x : OperandSpelling} (h : k ∈ x.keys n) : k.2 < n + x.text.size := by
  have hw : 0 < x.word.size := Text.size_pos x.spelledBy_word.ne_nil
  rw [size_text]
  rcases (mem_operandKeys h).2.2 with h | h <;> omega

theorem length_keys (n : Nat) (x : OperandSpelling) : (x.keys n).length =
    4 + if decide (x.tag.category = .syntacticFunction) then 1 else 0 := length_operandKeys ..

end OperandSpelling

namespace OperandGap

theorem keysFrom (n : Nat) (g : OperandGap) : KeysFrom n (g.keys n) where
  nodup := nodup_operandKeys ..
  ne_query k hk := (mem_operandKeys hk).1
  le k hk := by
    have := g.le_place n
    rcases (mem_operandKeys hk).2.2 with h | h <;> omega

end OperandGap

namespace ClauseSpelling

theorem keysFrom (n : Nat) (x : ClauseSpelling) : KeysFrom n (x.keys n) :=
  keysFrom_operator (by omega) (by omega) (by omega)

theorem lt_of_mem_keys {x : ClauseSpelling} (h : k ∈ x.keys n) : k.2 < n + x.text.size := by
  have hx : 0 < x.operand.text.size := Text.size_pos x.operand.text_ne_nil
  rw [size_text]
  rcases List.mem_cons.1 h with rfl | h
  · simp only [lead]
    omega
  · have := OperandSpelling.lt_of_mem_keys h
    omega

theorem lt_of_mem_keysAll {xs : List ClauseSpelling} (h : k ∈ keysAll n xs) :
    k.2 < n + Text.size (xs.flatMap text) := by
  induction xs generalizing n with
  | nil => cases h
  | cons x xs ih =>
    rw [List.flatMap_cons, Text.size_append]
    rcases List.mem_append.1 h with h | h
    · have := lt_of_mem_keys h
      omega
    · have := ih h
      omega

/-- The clauses follow one another. -/
theorem keysFrom_keysAll (n : Nat) (xs : List ClauseSpelling) : KeysFrom n (keysAll n xs) := by
  induction xs generalizing n with
  | nil => exact ⟨List.nodup_nil, by simp [keysAll], by simp [keysAll]⟩
  | cons x xs ih =>
    exact (x.keysFrom n).append (fun k hk => lt_of_mem_keys hk) (ih _) (Nat.le_add_right ..)

theorem length_keysAll (n : Nat) (xs : List ClauseSpelling) :
    (keysAll n xs).length = 5 * (partsAll n xs).length +
      (partsAll n xs).countP fun c => c.2.tag.tag.category = .syntacticFunction := by
  induction xs generalizing n with
  | nil => rfl
  | cons x xs ih =>
    simp only [keysAll, List.length_append, ih, partsAll, List.countP_cons, keys,
      List.length_cons, OperandSpelling.length_keys, parts, OperandSpelling.identifier]
    omega

end ClauseSpelling

namespace ClauseGap

theorem keysFrom (n : Nat) (g : ClauseGap) : KeysFrom n (g.keys n) := by
  cases g with
  | operator before => exact ⟨List.nodup_singleton _, by simp [keys], by simp [keys]⟩
  | operand before op after gap =>
    have := gap.le_place (n + before + 1 + after)
    exact keysFrom_operator (by omega) (by omega) (by omega)

end ClauseGap

/-- Five evaluations for each identifier, the operator before it or the query itself included, and
one more for each tag of the second category. -/
def Query.evaluations (q : Query) : Nat :=
  5 * q.identifiers.length + q.identifiers.countP fun x => x.tag.tag.category = .syntacticFunction

namespace QuerySpelling

theorem nodup_keys (n : Nat) (x : QuerySpelling) (g : ClauseGap) : (x.keys n g).Nodup := by
  have hsize : n + x.text.size =
      n + x.head.text.size + Text.size (x.clauses.flatMap ClauseSpelling.text) := by
    rw [text, Text.size_append, Nat.add_assoc]
  have hclauses := (ClauseSpelling.keysFrom_keysAll (n + x.head.text.size) x.clauses).append
    (fun k hk => hsize ▸ ClauseSpelling.lt_of_mem_keysAll hk) (g.keysFrom (n + x.text.size))
    (by omega)
  have hhead := (x.head.keysFrom n).append (fun k hk => OperandSpelling.lt_of_mem_keys hk)
    hclauses (Nat.le_add_right ..)
  exact hhead.nodup_query

theorem length_keys (n : Nat) (x : QuerySpelling) (g : ClauseGap) :
    (x.keys n g).length = (x.query n).evaluations + (g.keys (n + x.text.size)).length := by
  simp only [keys, List.length_cons, List.length_append, OperandSpelling.length_keys,
    ClauseSpelling.length_keysAll, Query.evaluations, Query.identifiers, query, List.length_map,
    List.countP_cons, List.countP_map, OperandSpelling.identifier, Function.comp_def]
  omega

end QuerySpelling

/-! ### What the rules visit -/

namespace Grammar

open TagQuery.Action

theorem negation_visits : negation.Visits input n [(.negation, n)] :=
  (Silent.terminal _ _ _ _).visits.memoized _

theorem binaryOp_visits : binaryOp.Visits input n [(.binaryOp, n)] := by
  refine (Silent.choice fun x hx => ?_).visits.memoized _
  obtain ⟨op, -, rfl⟩ := List.mem_map.1 hx
  exact (Silent.terminal _ _ _ _).map _

theorem category_visits (c : Category) : (category c).Visits input n [(c.rule, n)] := by
  refine (Silent.choice fun x hx => ?_).visits.memoized _
  obtain ⟨tag, -, rfl⟩ := List.mem_map.1 hx
  exact (Silent.terminal _ _ _ _).map _

/-- A tag visits the second category unless the first one matches. -/
theorem tag_visits {tag : Tag} (hw : tag.SpelledBy w) (h : input.rest n = w ++ v) :
    Grammar.tag.Visits input n ((.tag, n) :: (.contemporaryMeaning, n) ::
      if tag.category = .syntacticFunction then [(.syntacticFunction, n)] else []) := by
  have hcat := category_yields hw h
  refine Visits.memoized ?_ .tag
  cases hc : tag.category with
  | contemporaryMeaning =>
    rw [hc] at hcat
    refine Visits.of_eq (Visits.choice_matched hcat (category_visits _)) ?_
    simp [Category.rule]
  | syntacticFunction =>
    rw [hc] at hcat
    have hfail := category_yields_other hw h (c := .contemporaryMeaning) (by simp [hc])
    refine Visits.of_eq (Visits.choice_failed hfail (category_visits _)
      (Visits.choice_matched hcat (category_visits _))) ?_
    simp [Category.rule]

theorem tag_visits_failed (h : (input.rest n).NoPhrase) : Grammar.tag.Visits input n
    [(.tag, n), (.contemporaryMeaning, n), (.syntacticFunction, n)] := by
  have hfail : ∀ c : Category, (category c).Yields input n
      ⟨none, n, c.tags.map fun t => (n, .tag t)⟩ :=
    fun c => category_yields_failed fun tag _ w v hw => h tag w v hw
  exact (Visits.choice_failed (hfail _) (category_visits _)
    (Visits.choice_failed (hfail _) (category_visits _) Visits.choice_nil)).memoized .tag

theorem identifier_visits (x : OperandSpelling) (h : input.rest n = x.text ++ v) :
    identifier.Visits input n (x.keys n) := by
  have hword := x.rest_word h
  refine Visits.of_eq (Visits.memoized (Visits.sequence (Visits.bind (sign_yields x h)
    negation_visits.optional (Visits.bind (tag_yields x.spelledBy_word hword)
      (tag_visits x.spelledBy_word hword) (Silent.orStuck _ _).visits))) _) ?_
  simp [OperandSpelling.keys, operandKeys]

theorem identifier_visits_gap (g : OperandGap) (h : input.rest n = g.text) :
    identifier.Visits input n (g.keys n) := by
  cases g with
  | unsigned rest noSign noPhrase =>
    have h' : input.rest n = rest := h
    have hneg := (negation_yields_failed (h'.symm ▸ noSign)).optional
    exact (Visits.bind hneg negation_visits.optional (Visits.bind_failed
      (tag_yields_failed (h'.symm ▸ noPhrase))
      (tag_visits_failed (h'.symm ▸ noPhrase)))).sequence.memoized _
  | signed rest noPhrase =>
    have h' : input.rest n = ['-'] ++ rest := h
    have hneg := (negation_yields h').optional
    have hrest : input.rest (n + 1) = rest := Text.rest_add h'
    exact (Visits.bind hneg negation_visits.optional (Visits.bind_failed
      (tag_yields_failed (hrest.symm ▸ noPhrase))
      (tag_visits_failed (hrest.symm ▸ noPhrase)))).sequence.memoized _

theorem clause_visits_of_identifier {before after : Nat} {op : BinaryOp} {o : Outcome Identifier}
    (h : input.rest n = Text.spaces before ++ (op.symbol.toList ++ (Text.spaces after ++ v)))
    (hv : v.head? ≠ some ' ') (ho : identifier.Yields input (n + before + 1 + after) o)
    (hks : identifier.Visits input (n + before + 1 + after) ks) :
    clause.Visits input n ((.binaryOp, n + before) :: ks) := by
  have hspaces : Grammar.spaces.Silent := (Silent.terminal _ _ _ _).many.map _
  have h₁ := Text.rest_add h
  rw [Text.size_spaces] at h₁
  have h₂ := Text.rest_add h₁
  rw [BinaryOp.size_symbol] at h₂
  have hbefore := spaces_yields h (BinaryOp.head?_symbol_append op _)
  have hlast : (do let x ← identifier
                   return (⟨op, .ofLength (n + before) 1⟩, x) :
      Action (Operator × Identifier)).Visits input (n + before + 1 + after) ks := by
    obtain ⟨_ | x, stop, fs⟩ := o
    · exact Visits.bind_failed ho hks
    · exact (Visits.bind ho hks (Silent.pure (_, x)).visits).of_eq (List.append_nil ks)
  exact (Visits.bind hbefore hspaces.visits (Visits.bind (binaryOp_yields h₁) binaryOp_visits
    (Visits.bind (spaces_yields h₂ hv) hspaces.visits hlast))).sequence

theorem clause_visits (x : ClauseSpelling) (h : input.rest n = x.text ++ v) :
    clause.Visits input n (x.keys n) := by
  rw [ClauseSpelling.text_append] at h
  have hrest := rest_operator h
  rw [ClauseSpelling.keys, ClauseSpelling.add_lead]
  exact clause_visits_of_identifier h (x.operand.head?_text_ne (by decide) v)
    (identifier_yields x.operand hrest) (identifier_visits x.operand hrest)

theorem clause_visits_gap (g : ClauseGap) (h : input.rest n = g.text) :
    clause.Visits input n (g.keys n) := by
  cases g with
  | operator before rest noSpace noOperator =>
    have hspaces : Grammar.spaces.Silent := (Silent.terminal _ _ _ _).many.map _
    have h' : input.rest n = Text.spaces before ++ rest := h
    have hrest : input.rest (n + before) = rest := by
      have := Text.rest_add h'
      rwa [Text.size_spaces] at this
    exact (Visits.bind (spaces_yields h' noSpace) hspaces.visits (Visits.bind_failed
      (binaryOp_yields_failed (hrest.symm ▸ noOperator)) binaryOp_visits)).sequence
  | operand before op after gap noSpace =>
    have h' : input.rest n = Text.spaces before ++
        (op.symbol.toList ++ (Text.spaces after ++ gap.text)) := h
    have hrest := rest_operator h'
    exact clause_visits_of_identifier h' (ClauseGap.head?_gap_ne noSpace)
      (identifier_yields_gap gap hrest) (identifier_visits_gap gap hrest)

/-- Clauses up to a gap are visited one after the other, and then the gap. -/
theorem clauses_visits (xs : List ClauseSpelling) (g : ClauseGap)
    (h : input.rest n = xs.flatMap ClauseSpelling.text ++ g.text) (limit : Nat) :
    (manyUpTo clause limit).Visits input n (ClauseSpelling.keysAll n xs ++
      g.keys (n + Text.size (xs.flatMap ClauseSpelling.text))) := by
  induction xs generalizing n limit with
  | nil => exact Visits.many_stop (clause_yields_gap g h) (clause_visits_gap g h) limit
  | cons x xs ih =>
    rw [List.flatMap_cons, List.append_assoc] at h
    have hpos : 0 < x.text.size := Text.size_pos x.text_ne_nil
    have key := Visits.many_step (clause_yields x h) (by omega) (clause_visits x h)
      (ih (Text.rest_add h)) limit
    rw [ClauseSpelling.keysAll, List.flatMap_cons, Text.size_append, ← Nat.add_assoc,
      List.append_assoc]
    exact key

/-- **A query up to a gap visits its operands and clauses in their order**, and the gap last. -/
theorem query_visits (x : QuerySpelling) (g : ClauseGap) (h : input.rest n = x.text ++ g.text) :
    query.Visits input n (x.keys n g) := by
  have h' : input.rest n = x.head.text ++ (x.clauses.flatMap ClauseSpelling.text ++ g.text) := by
    rw [h, QuerySpelling.text, List.append_assoc]
  have hclauses := clauses_visits x.clauses g (Text.rest_add h')
  rw [Nat.add_assoc, ← Text.size_append, ← QuerySpelling.text] at hclauses
  have hend : ∀ head rest, (do
      let stop ← cursor
      let span ← orStuck .reversedSpan (Span.ofOffsets? n stop)
      return ⟨head, rest, span⟩ : Action Query).Silent := fun head rest =>
    Silent.cursor.bind fun stop => (Silent.orStuck _ _).bind fun span => .pure _
  refine Visits.of_eq (Visits.memoized (Visits.sequence (Visits.bind Yields.cursor
    Silent.cursor.visits (Visits.bind (identifier_yields x.head h') (identifier_visits x.head h')
      (Visits.bind (clauses_repeat x.clauses g (Text.rest_add h')).many (Visits.many hclauses)
        (hend _ _).visits)))) _) ?_
  simp [QuerySpelling.keys]

theorem query_visits_gap (g : OperandGap) (h : input.rest n = g.text) :
    query.Visits input n ((.query, n) :: g.keys n) :=
  (Visits.bind Yields.cursor Silent.cursor.visits (Visits.bind_failed (identifier_yields_gap g h)
    (identifier_visits_gap g h))).sequence.memoized _

end Grammar

/-! ### Runs -/

/-- **Every rule visits keys that are different from each other.** -/
theorem Rule.exists_visits (rule : Rule) (input : Text) :
    ∃ ks : List MemoKey, ks.Nodup ∧ rule.action.Visits input 0 ks := by
  cases rule with
  | query =>
    rcases ClauseGap.exists_query_append input with ⟨g, hg⟩ | ⟨x, g, hx⟩
    · exact ⟨_, (g.keysFrom 0).nodup_query,
        (Grammar.query_visits_gap g ((Text.rest_zero _).trans hg)).map _⟩
    · exact ⟨_, x.nodup_keys 0 g, (Grammar.query_visits x g ((Text.rest_zero _).trans hx)).map _⟩
  | identifier =>
    rcases OperandGap.exists_or input with ⟨x, v, hx⟩ | ⟨g, hg⟩
    · exact ⟨_, (x.keysFrom 0).nodup,
        (Grammar.identifier_visits x ((Text.rest_zero _).trans hx)).map _⟩
    · exact ⟨_, (g.keysFrom 0).nodup,
        (Grammar.identifier_visits_gap g ((Text.rest_zero _).trans hg)).map _⟩
  | tag =>
    rcases OperandGap.exists_phrase_or input with ⟨tag, w, v, hw, h⟩ | h
    · -- with the second category or without it, the rules of the keys are different
      refine ⟨_, ?_, (Grammar.tag_visits hw ((Text.rest_zero _).trans h)).map _⟩
      split <;> simp
    · refine ⟨_, ?_, (Grammar.tag_visits_failed (n := 0) ?_).map _⟩
      · simp
      · rwa [Text.rest_zero]
  | negation => exact ⟨_, List.nodup_singleton _, Grammar.negation_visits.map _⟩
  | binaryOp => exact ⟨_, List.nodup_singleton _, Grammar.binaryOp_visits.map _⟩
  | contemporaryMeaning => exact ⟨_, List.nodup_singleton _, (Grammar.category_visits _).map _⟩
  | syntacticFunction => exact ⟨_, List.nodup_singleton _, (Grammar.category_visits _).map _⟩

/-- The counters of the memo table of a parser. -/
def Parser.stats (p : Parser) : MemoStats := p.state.memo.stats

/-- A run finds no entry, and asks once for each entry that it leaves. -/
theorem Parser.stats_drive {p : Parser} {top : Action α} {o : Outcome α} (hm : p.memoize = true)
    (hy : top.Yields p.input 0 o) (h : top.Visits p.input 0 ks) (hks : ks.Nodup) :
    (p.drive top).2.stats = ⟨0, ks.length, ks.length⟩ := by
  refine drive_leaves (P := fun t => t.memo.stats = ⟨0, ks.length, ks.length⟩) ?_
    (fun t ht => by rwa [memo_expectEnd]) fun e he => ?_
  · have hunvisited : State.initial.Unvisited ks := ⟨hks, fun k _ => MemoTable.find?_empty ..⟩
    refine (h _ _ rfl hm (p.restart.size_lt_rounds 0) rfl (State.sound_of_empty rfl)
      hunvisited).mono fun t ht => ?_
    rw [MemoTable.stats, ht.hits, ht.misses, ht.size]
    simp [State.initial, MemoTable.empty, MemoTable.size]
  · obtain ⟨t, ht, -⟩ := hy (p.restart.context 0) .initial rfl (p.restart.size_lt_rounds 0) rfl
      (State.sound_of_empty rfl)
    obtain ⟨_ | a, stop, fs⟩ := o <;> cases he.symm.trans ht

theorem stats_run_of_query {s : String} (x : QuerySpelling) (g : ClauseGap)
    (h : s.toList = x.text ++ g.text) : (Parser.new s true).run.2.stats =
      ⟨0, (x.query 0).evaluations + (g.keys (0 + x.text.size)).length,
        (x.query 0).evaluations + (g.keys (0 + x.text.size)).length⟩ := by
  have hrest := (Text.rest_zero s.toList).trans h
  rw [← x.length_keys]
  exact Parser.stats_drive rfl (Grammar.query_yields x g hrest) (Grammar.query_visits x g hrest)
    (x.nodup_keys 0 g)

theorem stats_run_of_gap {s : String} (g : OperandGap) (h : s.toList = g.text) :
    (Parser.new s true).run.2.stats = ⟨0, 6, 6⟩ := by
  have hrest := (Text.rest_zero s.toList).trans h
  exact Parser.stats_drive rfl (Grammar.query_yields_gap g hrest)
    (Grammar.query_visits_gap g hrest) (g.keysFrom 0).nodup_query

/-- **Each rule is evaluated at most once at each offset**, and how often in all is known exactly.
After a run by any rule no question has found an entry, and there are as many entries as there were
questions.  A run over queries makes five evaluations for each identifier that it reads and one more
for each tag of the second category; then one for the operator that does not follow, and five for
the identifier that does not follow an operator.  Where nothing is read it is the query and the five
for an identifier. -/
theorem evaluated_once (s : String) :
    (∀ rule, ((Parser.new s true).runRule rule).2.stats.hits = 0 ∧
      ((Parser.new s true).runRule rule).2.stats.misses =
        ((Parser.new s true).runRule rule).2.stats.entries) ∧
    (∀ q, parse s = .accepted q →
      (Parser.new s true).run.2.stats = ⟨0, q.evaluations + 1, q.evaluations + 1⟩) ∧
    (∀ e, parse s = .rejected e → e.reason = .noMatch →
      (Parser.new s true).run.2.stats = ⟨0, 6, 6⟩) ∧
    ∀ e c, parse s = .rejected e → e.reason = .trailingInput c →
      ∃ (w : String) (q : Query) (j : Nat) (v : Text),
        Text.take? c s.toList = some w.toList ∧ parse w = .accepted q ∧
        Text.Leaves s.toList c j v ∧
        (v.NoOperator →
          (Parser.new s true).run.2.stats = ⟨0, q.evaluations + 1, q.evaluations + 1⟩) ∧
        (¬ v.NoOperator →
          (Parser.new s true).run.2.stats = ⟨0, q.evaluations + 6, q.evaluations + 6⟩) := by
  refine ⟨fun rule => ?_, fun q hq => ?_, fun e he hreason => ?_, fun e c he hreason => ?_⟩
  · obtain ⟨ks, hks, hvisits⟩ := rule.exists_visits s.toList
    obtain ⟨o, ho, -⟩ := rule.settles s.toList 0
    have hstats : ((Parser.new s true).runRule rule).2.stats = ⟨0, ks.length, ks.length⟩ :=
      Parser.stats_drive rfl ho hvisits hks
    rw [hstats]
    exact ⟨rfl, rfl⟩
  · obtain ⟨x, hx, rfl⟩ := exists_of_accepted hq
    exact stats_run_of_query x .finish (by simpa using hx)
  · rcases exists_of_rejected he with ⟨g, hg, rfl⟩ | ⟨x, g, hx, rfl⟩
    · exact stats_run_of_gap g hg
    · cases hreason
  · rcases exists_of_rejected he with ⟨g, hg, rfl⟩ | ⟨x, g, hx, rfl⟩
    · cases hreason
    · obtain rfl := RejectReason.trailingInput.inj hreason
      have hparse : parse (String.ofList x.text) = .accepted (x.query 0) :=
        parseWith_of_text true x (String.toList_ofList ..)
      have htake : Text.take? x.text.size s.toList = some (String.ofList x.text).toList := by
        rw [hx, String.toList_ofList, Text.take?_size]
      have hstats := stats_run_of_query x g hx
      cases g with
      | operator before rest noSpace noOperator =>
        exact ⟨_, _, before, rest, htake, hparse, ⟨x.text, hx, rfl, noSpace⟩, fun _ => hstats,
          fun h => absurd noOperator h⟩
      | operand before op after gap noSpace =>
        refine ⟨_, _, before, _, htake, hparse,
          ⟨x.text, hx, rfl, BinaryOp.head?_symbol_append op _⟩, fun h => ?_, fun _ => hstats⟩
        exact absurd rfl (h op _)

/-- Two identifiers, one of them of the second category: eleven evaluations on the way, and one for
the operator that could have followed. -/
theorem evaluated_once_subject : ∃ q, parse "-subject | booster" = .accepted q ∧
    q.evaluations = 11 ∧
      (Parser.new "-subject | booster" true).run.2.stats = ⟨0, 12, 12⟩ := by
  have h : (match parse "-subject | booster" with
      | .accepted q => decide (q.evaluations = 11)
      | _ => false) = true := by decide +kernel
  split at h
  · next q hq =>
    have hcount := of_decide_eq_true h
    have hstats := (evaluated_once "-subject | booster").2.1 q hq
    rw [hcount] at hstats
    exact ⟨q, hq, hcount, hstats⟩
  · cases h

end TagQuery
