import TagQuery.Grammar.Expr
import TagQuery.Proofs.Reading

/-!
# Actions that settle

An action settles on a text if it has an outcome at every place of it, and the cursor only moves
forward.  Then it neither gets stuck nor can its outcome depend on the memo table.

* Each combinator keeps this (`Action.Settles.chain`, `Action.Settles.many` and so on); for a
  repetition it is an induction on the number of bytes that are left.
* Every rule of the grammar settles (`Rule.settles`): what it reads at a place is known from what
  stands there, and it is a part of one kind with the span of what stands there
  (`Rule.exists_part`).
* So does every expression that is plain, that is, built from terminals and rules without memo
  entries and moves of its own (`Expr.settles`).
-/

namespace TagQuery

variable {α β : Type} {input : Text} {n : Nat}

/-! ### Moving forward -/

namespace Outcome

theorem forward_of_stop_eq {o : Outcome α} (h : o.stop = n) : o.Forward input n :=
  ⟨Nat.le_of_eq h.symm, Or.inl h⟩

theorem forward_of_rest {o : Outcome α} {w v : Text} (h : input.rest n = w ++ v) (hw : w ≠ [])
    (ho : o.stop = n + w.size) : o.Forward input n :=
  ⟨by omega, Or.inr (by rw [ho]; exact Text.add_size_le h hw)⟩

theorem Forward.trans {o : Outcome α} {o' : Outcome β} (h : o.Forward input n)
    (h' : o'.Forward input o.stop) : o'.Forward input n := by
  have h₁ := h.le_stop
  have h₂ := h'.le_stop
  refine ⟨by omega, ?_⟩
  rcases h'.stop_le with he | hle
  · rw [he]
    exact h.stop_le
  · exact Or.inr hle

theorem Forward.rewind {o : Outcome α} (h : o.Forward input n) : (o.rewind n).Forward input n := by
  obtain ⟨_ | a, stop, fs⟩ := o
  · exact forward_of_stop_eq rfl
  · exact h

end Outcome

namespace Action

/-- The action has an outcome at every place, and never moves the cursor backwards. -/
def Settles (x : Action α) (input : Text) : Prop :=
  ∀ n, ∃ o, x.Yields input n o ∧ o.Forward input n

namespace Settles

variable {x : Action α} {xs : List (Action α)}

theorem pure (a : α) : (pure a : Action α).Settles input :=
  fun n => ⟨⟨some a, n, []⟩, Yields.pure a, Outcome.forward_of_stop_eq rfl⟩

theorem fail : (fail : Action α).Settles input :=
  fun n => ⟨⟨none, n, []⟩, Yields.fail, Outcome.forward_of_stop_eq rfl⟩

theorem terminal (rule : Rule) (token : Token) (text : Text) (accepts : Text → Bool) :
    (terminal rule token text accepts).Settles input := by
  intro n
  by_cases h : (input.slice? n (n + text.size)).any accepts
  · refine ⟨_, terminal_yields rule token h, ⟨Nat.le_add_right .., Or.inr ?_⟩⟩
    obtain ⟨m, hm, -⟩ := (Option.any_eq_true ..).1 h
    exact Text.le_size_of_slice? hm
  · exact ⟨_, terminal_yields_failed rule token h, Outcome.forward_of_stop_eq rfl⟩

theorem map (h : x.Settles input) (f : α → β) : (f <$> x).Settles input := by
  intro n
  obtain ⟨o, ho, hf⟩ := h n
  exact ⟨o.map f, ho.map f, hf.le_stop, hf.stop_le⟩

theorem sequence (h : x.Settles input) : (sequence x).Settles input := by
  intro n
  obtain ⟨o, ho, hf⟩ := h n
  exact ⟨_, ho.sequence, hf.rewind⟩

theorem optional (h : x.Settles input) : (optional x).Settles input := by
  intro n
  obtain ⟨o, ho, hf⟩ := h n
  exact ⟨_, ho.optional, hf.rewind.le_stop, hf.rewind.stop_le⟩

theorem bind {f : α → Action β} (h : x.Settles input) (hf : ∀ a, (f a).Settles input) :
    (x >>= f).Settles input := by
  intro n
  obtain ⟨⟨_ | a, m, fs⟩, ho, hfwd⟩ := h n
  · exact ⟨_, ho.bind_failed, hfwd.le_stop, hfwd.stop_le⟩
  · obtain ⟨o', ho', hfwd'⟩ := hf a m
    exact ⟨_, ho.bind ho', (hfwd.trans hfwd').le_stop, (hfwd.trans hfwd').stop_le⟩

theorem chain (h : ∀ x ∈ xs, x.Settles input) : (chain xs).Settles input := by
  induction xs with
  | nil => exact pure []
  | cons x xs ih =>
    have hxs := ih fun y hy => h y (List.mem_cons_of_mem x hy)
    exact (h x List.mem_cons_self).bind fun a => hxs.bind fun as => pure (a :: as)

theorem choice (h : ∀ x ∈ xs, x.Settles input) : (choice xs).Settles input := by
  induction xs with
  | nil => exact fail
  | cons x xs ih =>
    intro n
    obtain ⟨⟨_ | a, m, fs⟩, ho, hf⟩ := h x List.mem_cons_self n
    · obtain ⟨o', ho', hf'⟩ := ih (fun y hy => h y (List.mem_cons_of_mem x hy)) n
      exact ⟨_, ho.choice_failed ho', hf'.le_stop, hf'.stop_le⟩
    · exact ⟨_, ho.choice_matched, hf⟩

/-- A repetition comes to an end, since every round but the last takes some of the bytes that are
left. -/
theorem exists_repeats (h : x.Settles input) (n : Nat) :
    ∃ (as : List α) (k : Nat) (fs : Failures), Repeats x input n ⟨some as, k, fs⟩ ∧
      (⟨some as, k, fs⟩ : Outcome (List α)).Forward input n := by
  induction hl : input.size - n using Nat.strongRecOn generalizing n with
  | _ l ih =>
    obtain ⟨⟨_ | a, m, fs⟩, ho, hf⟩ := h n
    · exact ⟨[], n, fs, Repeats.stop ho, Outcome.forward_of_stop_eq rfl⟩
    · by_cases hm : m = n
      · subst hm
        exact ⟨[a], m, fs, Repeats.still ho, Outcome.forward_of_stop_eq rfl⟩
      · have hle := hf.le_stop
        have hsize := hf.stop_le.resolve_left hm
        simp only at hle hsize
        obtain ⟨as, k, gs, hr, hf'⟩ := ih (input.size - m) (by omega) m rfl
        exact ⟨a :: as, k, fs ++ gs, Repeats.step ho (by omega) hsize hr,
          (hf.trans hf').le_stop, (hf.trans hf').stop_le⟩

theorem many (h : x.Settles input) : (many x).Settles input := by
  intro n
  obtain ⟨as, k, fs, hr, hf⟩ := h.exists_repeats n
  exact ⟨_, hr.many, hf⟩

end Settles

end Action

/-! ### Rules -/

/-- What a rule comes to at `n`: nothing, and the cursor stays; or a node of one kind, with the span
of the piece of text that stands there and that the cursor moves over. -/
inductive Outcome.Part (input : Text) (n : Nat) (kind : NodeKind) : Outcome Node → Prop where
  | missing (fs : Failures) : Part input n kind ⟨none, n, fs⟩
  | read {x : Node} {w v : Text} (stands : input.rest n = w ++ v) (ne_nil : w ≠ [])
      (kind_eq : x.kind = kind) (span_eq : x.span = .ofLength n w.size) (fs : Failures) :
      Part input n kind ⟨some x, n + w.size, fs⟩

namespace Outcome.Part

variable {kind : NodeKind} {o : Outcome Node}

theorem forward (h : o.Part input n kind) : o.Forward input n := by
  cases h with
  | missing fs => exact forward_of_stop_eq rfl
  | read stands ne_nil => exact forward_of_rest stands ne_nil rfl

theorem stop_eq (h : o.Part input n kind) (hnone : o.result = none) : o.stop = n := by
  cases h with
  | missing fs => rfl
  | read => cases hnone

/-- A node was read from `n` to where the cursor is, which is further on and within the text. -/
theorem of_result {x : Node} (h : o.Part input n kind) (hx : o.result = some x) :
    n < o.stop ∧ o.stop ≤ input.size ∧ x.kind = kind ∧
      Span.ofOffsets? n o.stop = some x.span := by
  cases h with
  | missing fs => cases hx
  | @read y w v stands ne_nil kind_eq span_eq fs =>
    obtain rfl := Option.some.inj hx
    refine ⟨Nat.lt_add_of_pos_right (Text.size_pos ne_nil), Text.add_size_le stands ne_nil,
      kind_eq, ?_⟩
    rw [span_eq, Span.ofOffsets?_add]

end Outcome.Part

theorem Action.Yields.exists_part [Fragment α] {x : Action α} {kind : NodeKind} {a : α}
    {w v : Text} {fs : Failures} (h : x.Yields input n ⟨some a, n + w.size, fs⟩)
    (stands : input.rest n = w ++ v) (ne_nil : w ≠ [])
    (kind_eq : (Fragment.toNode a).kind = kind)
    (span_eq : (Fragment.toNode a).span = .ofLength n w.size) :
    ∃ o, x.Yields input n o ∧ (o.map Fragment.toNode).Part input n kind :=
  ⟨_, h, .read stands ne_nil kind_eq span_eq fs⟩

/-- At every place the action comes to a part of the kind, or to nothing. -/
def Action.ReadsParts [Fragment α] (x : Action α) (input : Text) (kind : NodeKind) : Prop :=
  ∀ n, ∃ o, x.Yields input n o ∧ (o.map Fragment.toNode).Part input n kind

theorem Action.ReadsParts.settles [Fragment α] {x : Action α} {kind : NodeKind}
    (h : x.ReadsParts input kind) : x.Settles input := by
  intro n
  obtain ⟨o, ho, hpart⟩ := h n
  exact ⟨o, ho, hpart.forward.le_stop, hpart.forward.stop_le⟩

namespace Grammar

theorem negation_readsParts (input : Text) : negation.ReadsParts input .negation := by
  intro n
  by_cases h : (input.rest n).head? = some '-'
  · obtain ⟨v, hv⟩ := List.head?_eq_some_iff.1 h
    have hv' : input.rest n = ['-'] ++ v := hv
    exact (negation_yields hv).exists_part hv' (by simp) rfl rfl
  · exact ⟨_, negation_yields_failed h, .missing _⟩

theorem binaryOp_readsParts (input : Text) : binaryOp.ReadsParts input .binaryOp := by
  intro n
  by_cases h : ∃ (op : BinaryOp) (v : Text), input.rest n = op.symbol.toList ++ v
  · obtain ⟨op, v, hv⟩ := h
    have hne : op.symbol.toList ≠ [] := by cases op <;> decide
    have key := binaryOp_yields hv
    rw [← op.size_symbol] at key
    exact key.exists_part hv hne rfl rfl
  · exact ⟨_, binaryOp_yields_failed fun op v hv => h ⟨op, v, hv⟩, .missing _⟩

theorem category_readsParts (c : Category) (input : Text) : (category c).ReadsParts input .tag := by
  intro n
  by_cases h : ∃ (tag : Tag) (w v : Text),
      tag.category = c ∧ tag.SpelledBy w ∧ input.rest n = w ++ v
  · obtain ⟨tag, w, v, rfl, hw, hv⟩ := h
    exact (category_yields hw hv).exists_part hv hw.ne_nil rfl rfl
  · refine ⟨_, category_yields_failed ?_, .missing _⟩
    exact fun tag hc w v hw hv => h ⟨tag, w, v, hc, hw, hv⟩

theorem tag_readsParts (input : Text) : Grammar.tag.ReadsParts input .tag := by
  intro n
  rcases OperandGap.exists_phrase_or (input.rest n) with ⟨tag, w, v, hw, hv⟩ | h
  · exact (tag_yields hw hv).exists_part hv hw.ne_nil rfl rfl
  · exact ⟨_, tag_yields_failed h, .missing _⟩

theorem identifier_readsParts (input : Text) : identifier.ReadsParts input .identifier := by
  intro n
  rcases OperandGap.exists_or (input.rest n) with ⟨x, v, hv⟩ | ⟨g, hg⟩
  · exact (identifier_yields x hv).exists_part hv x.text_ne_nil rfl rfl
  · exact ⟨_, identifier_yields_gap g hg, .missing _⟩

theorem query_readsParts (input : Text) : query.ReadsParts input .query := by
  intro n
  rcases ClauseGap.exists_query_append (input.rest n) with ⟨g, hg⟩ | ⟨w, g, hw⟩
  · exact ⟨_, query_yields_gap g hg, .missing _⟩
  · exact (query_yields w g hw).exists_part hw w.text_ne_nil rfl rfl

end Grammar

/-- **Every rule comes to a part of its kind or to nothing**, at every place of every text. -/
theorem Rule.exists_part (rule : Rule) (input : Text) (n : Nat) :
    ∃ o, rule.action.Yields input n o ∧ o.Part input n rule.nodeKind := by
  have key {α : Type} [Fragment α] {x : Action α} (h : x.ReadsParts input rule.nodeKind) :
      ∃ o, (Fragment.toNode <$> x).Yields input n o ∧ o.Part input n rule.nodeKind := by
    obtain ⟨o, ho, hpart⟩ := h n
    exact ⟨_, ho.map _, hpart⟩
  cases rule with
  | query => exact key (Grammar.query_readsParts input)
  | identifier => exact key (Grammar.identifier_readsParts input)
  | negation => exact key (Grammar.negation_readsParts input)
  | binaryOp => exact key (Grammar.binaryOp_readsParts input)
  | tag => exact key (Grammar.tag_readsParts input)
  | contemporaryMeaning => exact key (Grammar.category_readsParts _ input)
  | syntacticFunction => exact key (Grammar.category_readsParts _ input)

/-- **Every rule settles on every text.** -/
theorem Rule.settles (rule : Rule) (input : Text) : rule.action.Settles input := by
  intro n
  obtain ⟨o, ho, hpart⟩ := rule.exists_part input n
  exact ⟨o, ho, hpart.forward⟩

theorem Grammar.query_settles (input : Text) : query.Settles input :=
  (Grammar.query_readsParts input).settles

/-! ### Expressions -/

namespace Expr

mutual

/-- The expression has no memo entries of its own and no moves. -/
def isPlain : Expr → Bool
  | .literal .. | .phrase .. | .rule _ | .empty | .fail => true
  | .chain parts | .seq parts | .choice parts => isPlainAll parts
  | .many part | .opt part => part.isPlain
  | .memo .. | .moveTo _ => false

/-- The expressions have no memo entries of their own and no moves. -/
def isPlainAll : List Expr → Bool
  | [] => true
  | part :: parts => part.isPlain && isPlainAll parts

end

mutual

/-- **Every plain expression settles on every text.** -/
theorem settles (input : Text) : (e : Expr) → e.isPlain → e.eval.Settles input
  | .literal .., _ => (Action.Settles.terminal _ _ _ _).map _
  | .phrase .., _ => (Action.Settles.terminal _ _ _ _).map _
  | .rule r, _ => (r.settles input).map _
  | .chain parts, h => (Action.Settles.chain (settlesAll input parts h)).map _
  | .seq parts, h => (Action.Settles.chain (settlesAll input parts h)).sequence.map _
  | .choice parts, h => Action.Settles.choice (settlesAll input parts h)
  | .many part, h => (settles input part h).many.map _
  | .opt part, h => (settles input part h).optional.map _
  | .empty, _ => Action.Settles.pure _
  | .fail, _ => Action.Settles.fail

theorem settlesAll (input : Text) : (parts : List Expr) → isPlainAll parts →
    ∀ x ∈ evalAll parts, x.Settles input
  | [], _ => by simp [evalAll]
  | part :: parts, h => by
    obtain ⟨h₁, h₂⟩ := Bool.and_eq_true_iff.1 h
    intro x hx
    rcases List.mem_cons.1 hx with rfl | hx
    · exact settles input part h₁
    · exact settlesAll input parts h₂ x hx

end

end Expr

end TagQuery
