import TagQuery.Proofs.Gap
import TagQuery.Proofs.Outcome

/-!
# What the rules read

Each rule of the grammar, started where something spelled stands, reads it: the value has the
spans of the pieces, the cursor stops after it, and the failures are those of the alternatives
tried before the right one.  Started at a gap, it fails with the failures of the gap.  Together
with `ClauseGap.exists_query_append` this covers every place of every text; the rules are stated by
what stands at the offset (`Text.rest`), so a place inside a character or past the end counts as
one where nothing stands.

The main results are `Grammar.identifier_yields`, `Grammar.clause_yields` and
`Grammar.query_yields`, each with its counterpart `…_yields_gap` for a gap.
-/

namespace TagQuery

/-! ### The values and failures of what is spelled -/

/-- The failures met before a tag is found at `n`: the tags before it in the vocabulary. -/
def Tag.failures (n : Nat) (tag : Tag) : Failures :=
  (Tag.all.takeWhile (· ≠ tag)).map fun t => (n, Expected.tag t)

namespace OperandSpelling

/-- Number of bytes before the phrase. -/
def signSize (x : OperandSpelling) : Nat := if x.negated then 1 else 0

/-- The identifier read from the operand at `n`. -/
def identifier (n : Nat) (x : OperandSpelling) : Identifier :=
  ⟨if x.negated then some (.ofLength n 1) else none,
    ⟨x.tag, .ofLength (n + x.signSize) x.word.size⟩, .ofLength n x.text.size⟩

/-- The failures met while the operand at `n` is read. -/
def failures (n : Nat) (x : OperandSpelling) : Failures :=
  (if x.negated then [] else [(n, .sign)]) ++ x.tag.failures (n + x.signSize)

theorem size_text (x : OperandSpelling) : x.text.size = x.signSize + x.word.size := by
  obtain ⟨negated, tag, w, hw⟩ := x
  cases negated
  · simp [text, signSize]
  · simp only [text, signSize, ↓reduceIte, Text.size_append]
    rfl

theorem rest_word {t v : Text} {n : Nat} (x : OperandSpelling) (h : t.rest n = x.text ++ v) :
    t.rest (n + x.signSize) = x.word ++ v := by
  obtain ⟨negated, tag, w, hw⟩ := x
  cases negated with
  | true => exact Text.rest_add (w := ['-']) h
  | false => exact h

@[simp] theorem operand_identifier (n : Nat) (x : OperandSpelling) :
    (x.identifier n).operand = x.operand := by
  obtain ⟨negated, tag, w, hw⟩ := x
  cases negated <;> rfl

theorem lt_of_mem_failures {n : Nat} {x : OperandSpelling} {f : Nat × Expected}
    (hf : f ∈ x.failures n) : f.1 < n + x.text.size := by
  have hw : 0 < x.word.size := Text.size_pos x.spelledBy_word.ne_nil
  rw [size_text]
  rcases List.mem_append.1 hf with h | h
  · split at h
    · simp at h
    · obtain rfl := List.mem_singleton.1 h
      simp only
      omega
  · obtain ⟨t, -, rfl⟩ := List.mem_map.1 h
    simp only
    omega

end OperandSpelling

namespace ClauseSpelling

/-- Number of bytes before the operand. -/
def lead (x : ClauseSpelling) : Nat := x.before + 1 + x.after

/-- The operator and the identifier read from the clause at `n`. -/
def parts (n : Nat) (x : ClauseSpelling) : Operator × Identifier :=
  (⟨x.op, .ofLength (n + x.before) 1⟩, x.operand.identifier (n + x.lead))

/-- The failures met while the clause at `n` is read. -/
def failures (n : Nat) (x : ClauseSpelling) : Failures :=
  x.op.failures n x.before x.after ++ x.operand.failures (n + x.lead)

/-- What is read from clauses that begin at `n`. -/
def partsAll : Nat → List ClauseSpelling → List (Operator × Identifier)
  | _, [] => []
  | n, x :: xs => x.parts n :: partsAll (n + x.text.size) xs

/-- The failures met while clauses that begin at `n` are read. -/
def failuresAll : Nat → List ClauseSpelling → Failures
  | _, [] => []
  | n, x :: xs => x.failures n ++ failuresAll (n + x.text.size) xs

theorem add_lead (n : Nat) (x : ClauseSpelling) :
    n + x.lead = n + x.before + 1 + x.after := by
  simp only [lead]
  omega

theorem size_text (x : ClauseSpelling) : x.text.size = x.lead + x.operand.text.size := by
  simp only [text, lead, Text.size_append, Text.size_spaces, BinaryOp.size_symbol]

theorem lt_of_mem_failures {n : Nat} {x : ClauseSpelling} {f : Nat × Expected}
    (hf : f ∈ x.failures n) : f.1 < n + x.text.size := by
  have hx : 0 < x.operand.text.size := Text.size_pos x.operand.text_ne_nil
  rw [size_text]
  rcases List.mem_append.1 hf with h | h
  · rcases List.mem_append.1 h with h | h
    · obtain ⟨e, -, rfl⟩ := List.mem_map.1 h
      simp only [lead]
      omega
    · obtain rfl := List.mem_singleton.1 h
      simp only [lead]
      omega
  · have := OperandSpelling.lt_of_mem_failures h
    omega

theorem lt_of_mem_failuresAll {n : Nat} {xs : List ClauseSpelling} {f : Nat × Expected}
    (hf : f ∈ failuresAll n xs) : f.1 < n + Text.size (xs.flatMap text) := by
  induction xs generalizing n with
  | nil => simp [failuresAll] at hf
  | cons x xs ih =>
    rw [List.flatMap_cons, Text.size_append]
    rcases List.mem_append.1 hf with h | h
    · have := lt_of_mem_failures h
      omega
    · have := ih h
      omega

@[simp] theorem map_partsAll (n : Nat) (xs : List ClauseSpelling) :
    (partsAll n xs).map (fun c => (c.1.op, c.2.operand)) = xs.map clause := by
  induction xs generalizing n with
  | nil => rfl
  | cons x xs ih =>
    rw [partsAll, List.map_cons, List.map_cons, ih]
    simp [parts, clause]

end ClauseSpelling

namespace QuerySpelling

/-- The query read from the text at `n`. -/
def query (n : Nat) (w : QuerySpelling) : Query :=
  ⟨w.head.identifier n, ClauseSpelling.partsAll (n + w.head.text.size) w.clauses,
    .ofLength n w.text.size⟩

/-- The failures met while the query at `n` is read. -/
def failures (n : Nat) (w : QuerySpelling) : Failures :=
  w.head.failures n ++ ClauseSpelling.failuresAll (n + w.head.text.size) w.clauses

@[simp] theorem outline_query (n : Nat) (w : QuerySpelling) : (w.query n).outline = w.outline := by
  simp [Query.outline, query, outline]

theorem lt_of_mem_failures {n : Nat} {w : QuerySpelling} {f : Nat × Expected}
    (hf : f ∈ w.failures n) : f.1 < n + w.text.size := by
  rw [text, Text.size_append]
  rcases List.mem_append.1 hf with h | h
  · have := OperandSpelling.lt_of_mem_failures h
    omega
  · have := ClauseSpelling.lt_of_mem_failuresAll h
    omega

end QuerySpelling

namespace Grammar

open TagQuery.Action

variable {input v w : Text} {n : Nat}

/-! ### Terminals -/

theorem literal_yields (rule : Rule) {text : String} (hne : text.toList ≠ [])
    (h : input.rest n = text.toList ++ v) : (literal rule text).Yields input n
      ⟨some (.ofLength n (Text.size text.toList)), n + Text.size text.toList, []⟩ := by
  refine terminal_yields rule _ ?_
  have hslice := (Text.slice?_eq_some_iff_rest (Text.size_pos hne)).2 ⟨v, h, rfl⟩
  rw [hslice]
  simp

theorem literal_yields_failed {rule : Rule} {text : String} (hne : text.toList ≠ [])
    (h : ∀ v, input.rest n ≠ text.toList ++ v) :
    (literal rule text).Yields input n ⟨none, n, [(n, .new rule (.literal text))]⟩ := by
  refine terminal_yields_failed rule _ fun hany => ?_
  obtain ⟨m, hm, hacc⟩ := (Option.any_eq_true ..).1 hany
  obtain ⟨v, hv, -⟩ := (Text.slice?_eq_some_iff_rest (Text.size_pos hne)).1 hm
  exact h v (by rw [hv, of_decide_eq_true hacc])

theorem tagOf_yields {tag : Tag} (hw : tag.SpelledBy w) (h : input.rest n = w ++ v) :
    (tagOf tag).Yields input n ⟨some ⟨tag, .ofLength n w.size⟩, n + w.size, []⟩ := by
  have key : (phrase tag.category.rule tag.phrase).Yields input n
      ⟨some (.ofLength n w.size), n + w.size, []⟩ := by
    rw [hw.size_eq]
    refine terminal_yields _ _ ?_
    have hslice := (Text.slice?_eq_some_iff_rest (Text.size_pos hw.ne_nil)).2 ⟨v, h, rfl⟩
    rw [← hw.size_eq, hslice]
    exact decide_eq_true hw
  exact key.map _

theorem tagOf_yields_failed {tag : Tag}
    (h : ∀ w v, tag.SpelledBy w → input.rest n ≠ w ++ v) :
    (tagOf tag).Yields input n ⟨none, n, [(n, .tag tag)]⟩ := by
  have key : (phrase tag.category.rule tag.phrase).Yields input n ⟨none, n, [(n, .tag tag)]⟩ := by
    refine terminal_yields_failed _ _ fun hany => ?_
    have hpos : 0 < Text.size tag.phrase.toList :=
      Text.size_pos (show tag.SpelledBy tag.phrase.toList from rfl).ne_nil
    obtain ⟨w, hw, hfold⟩ := (Option.any_eq_true ..).1 hany
    obtain ⟨v, hv, -⟩ := (Text.slice?_eq_some_iff_rest hpos).1 hw
    exact h w v (of_decide_eq_true hfold) hv
  exact key.map _

/-! ### Tags -/

/-- A choice of tags finds the one that stands there, whatever the order. -/
theorem choice_tagOf_yields {tags : List Tag} {tag : Tag} (htag : tag ∈ tags)
    (hw : tag.SpelledBy w) (h : input.rest n = w ++ v) :
    (choice (tags.map tagOf)).Yields input n ⟨some ⟨tag, .ofLength n w.size⟩, n + w.size,
      (tags.takeWhile (· ≠ tag)).map fun t => (n, .tag t)⟩ := by
  induction tags with
  | nil => simp at htag
  | cons t tags ih =>
    by_cases ht : t = tag
    · subst ht
      simpa using Yields.choice_matched (tagOf_yields hw h)
    · have hfail : (tagOf t).Yields input n ⟨none, n, [(n, .tag t)]⟩ := by
        refine tagOf_yields_failed fun w' v' hw' hv' => ht ?_
        exact (hw'.append_inj hw (hv'.symm.trans h)).1
      have hmem : tag ∈ tags := (List.mem_cons.1 htag).resolve_left fun he => ht he.symm
      simpa [ht] using Yields.choice_failed hfail (ih hmem)

theorem choice_tagOf_yields_failed {tags : List Tag}
    (h : ∀ tag ∈ tags, ∀ w v, tag.SpelledBy w → input.rest n ≠ w ++ v) :
    (choice (tags.map tagOf)).Yields input n ⟨none, n, tags.map fun t => (n, .tag t)⟩ := by
  induction tags with
  | nil => exact Yields.fail
  | cons t tags ih =>
    exact Yields.choice_failed (tagOf_yields_failed (h t List.mem_cons_self))
      (ih fun tag htag => h tag (List.mem_cons_of_mem t htag))

theorem action_rule (category : Category) :
    category.rule.action = Fragment.toNode <$> Grammar.category category := by
  cases category <;> rfl

/-- The rule of a category reads the phrase of one of its tags. -/
theorem category_yields {tag : Tag} (hw : tag.SpelledBy w) (h : input.rest n = w ++ v) :
    (category tag.category).Yields input n ⟨some ⟨tag, .ofLength n w.size⟩, n + w.size,
      (tag.category.tags.takeWhile (· ≠ tag)).map fun t => (n, .tag t)⟩ :=
  (choice_tagOf_yields (Category.mem_tags.2 rfl) hw h).memoized (action_rule _)

theorem category_yields_failed {category : Category}
    (h : ∀ tag : Tag, tag.category = category →
      ∀ w v, tag.SpelledBy w → input.rest n ≠ w ++ v) :
    (Grammar.category category).Yields input n
      ⟨none, n, category.tags.map fun t => (n, .tag t)⟩ :=
  (choice_tagOf_yields_failed fun tag htag => h tag (Category.mem_tags.1 htag)).memoized
    (action_rule _)

/-- The rule of a category fails at a tag of another one. -/
theorem category_yields_other {tag : Tag} {c : Category} (hw : tag.SpelledBy w)
    (h : input.rest n = w ++ v) (hc : tag.category ≠ c) : (category c).Yields input n
      ⟨none, n, c.tags.map fun t => (n, .tag t)⟩ := by
  refine category_yields_failed fun t ht w' v' hw' hv' => hc ?_
  obtain rfl := (hw'.append_inj hw (hv'.symm.trans h)).1
  exact ht

theorem tag_yields {tag : Tag} (hw : tag.SpelledBy w) (h : input.rest n = w ++ v) :
    Grammar.tag.Yields input n ⟨some ⟨tag, .ofLength n w.size⟩, n + w.size, tag.failures n⟩ := by
  have hcat := category_yields hw h
  have key : (choice (Category.all.map category)).Yields input n
      ⟨some ⟨tag, .ofLength n w.size⟩, n + w.size, tag.failures n⟩ := by
    cases hc : tag.category with
    | contemporaryMeaning =>
      rw [hc] at hcat
      have hf : (Category.contemporaryMeaning.tags.takeWhile (· ≠ tag)).map
          (fun t => (n, Expected.tag t)) = tag.failures n := by
        cases tag <;> first | rfl | cases hc
      rw [hf] at hcat
      exact Yields.choice_matched hcat
    | syntacticFunction =>
      rw [hc] at hcat
      -- the other category is tried first, and all of its phrases are missing
      have hfail := category_yields_other hw h (c := .contemporaryMeaning) (by simp [hc])
      have hf : Category.contemporaryMeaning.tags.map (fun t => (n, Expected.tag t)) ++
          (Category.syntacticFunction.tags.takeWhile (· ≠ tag)).map
            (fun t => (n, Expected.tag t)) = tag.failures n := by
        cases tag <;> first | rfl | cases hc
      rw [← hf]
      exact Yields.choice_failed hfail (Yields.choice_matched hcat)
  exact key.memoized rfl

theorem tag_yields_failed (h : (input.rest n).NoPhrase) :
    Grammar.tag.Yields input n ⟨none, n, Expected.tags.map fun e => (n, e)⟩ := by
  have hfail : ∀ c : Category, (category c).Yields input n
      ⟨none, n, c.tags.map fun t => (n, .tag t)⟩ :=
    fun c => category_yields_failed fun tag _ w v hw => h tag w v hw
  have key : (choice (Category.all.map category)).Yields input n
      ⟨none, n, Expected.tags.map fun e => (n, e)⟩ :=
    Yields.choice_failed (hfail _) (Yields.choice_failed (hfail _) Yields.choice_nil)
  exact key.memoized rfl

/-! ### Signs, operators and spaces -/

theorem negation_yields (h : input.rest n = '-' :: v) :
    negation.Yields input n ⟨some (.ofLength n 1), n + 1, []⟩ := by
  have h' : input.rest n = "-".toList ++ v := h
  exact (literal_yields .negation (by decide) h').memoized rfl

theorem negation_yields_failed (h : (input.rest n).head? ≠ some '-') :
    negation.Yields input n ⟨none, n, [(n, .sign)]⟩ := by
  refine (literal_yields_failed (by decide) fun v hv => h ?_).memoized rfl
  rw [hv]
  rfl

theorem operatorOf_yields {op : BinaryOp} (h : input.rest n = op.symbol.toList ++ v) :
    (operatorOf (op.symbol, op)).Yields input n ⟨some ⟨op, .ofLength n 1⟩, n + 1, []⟩ := by
  have hne : op.symbol.toList ≠ [] := by cases op <;> decide
  have key := (literal_yields .binaryOp hne h).map fun span => Operator.mk op span
  rwa [BinaryOp.size_symbol] at key

theorem operatorOf_yields_failed {op : BinaryOp} (h : ∀ v, input.rest n ≠ op.symbol.toList ++ v) :
    (operatorOf (op.symbol, op)).Yields input n ⟨none, n, [(n, .operator op)]⟩ := by
  have hne : op.symbol.toList ≠ [] := by cases op <;> decide
  exact (literal_yields_failed hne h).map _

theorem binaryOp_yields {op : BinaryOp} (h : input.rest n = op.symbol.toList ++ v) :
    binaryOp.Yields input n ⟨some ⟨op, .ofLength n 1⟩, n + 1,
      ((BinaryOp.all.takeWhile (· ≠ op)).map Expected.operator).map fun e => (n, e)⟩ := by
  have key : (choice (operators.map operatorOf)).Yields input n ⟨some ⟨op, .ofLength n 1⟩,
      n + 1, ((BinaryOp.all.takeWhile (· ≠ op)).map Expected.operator).map fun e => (n, e)⟩ := by
    rw [operators_eq]
    cases op with
    | or => exact Yields.choice_matched (operatorOf_yields h)
    | and =>
      -- the other symbol is tried first, and is missing because this one stands here
      have hfail : (operatorOf (BinaryOp.or.symbol, .or)).Yields input n
          ⟨none, n, [(n, .operator .or)]⟩ := by
        refine operatorOf_yields_failed fun v' hv' => ?_
        cases (BinaryOp.symbol_append_inj (hv'.symm.trans h)).1
      exact Yields.choice_failed hfail (Yields.choice_matched (operatorOf_yields h))
  exact key.memoized rfl

theorem binaryOp_yields_failed (h : (input.rest n).NoOperator) :
    binaryOp.Yields input n ⟨none, n, Expected.operators.map fun e => (n, e)⟩ := by
  have hfail : ∀ op : BinaryOp, (operatorOf (op.symbol, op)).Yields input n
      ⟨none, n, [(n, .operator op)]⟩ := fun op => operatorOf_yields_failed (h op)
  have key : (choice (operators.map operatorOf)).Yields input n
      ⟨none, n, Expected.operators.map fun e => (n, e)⟩ := by
    rw [operators_eq]
    exact Yields.choice_failed (hfail _) (Yields.choice_failed (hfail _) Yields.choice_nil)
  exact key.memoized rfl

theorem spaces_yields {k : Nat} (h : input.rest n = Text.spaces k ++ v)
    (hv : v.head? ≠ some ' ') :
    spaces.Yields input n ⟨some (), n + k, [(n + k, .space)]⟩ := by
  have key : ∃ as, Repeats (literal .query " ") input n ⟨some as, n + k, [(n + k, .space)]⟩ := by
    induction k generalizing n with
    | zero =>
      refine ⟨[], Repeats.stop (literal_yields_failed (by decide) fun v' hv' => hv ?_)⟩
      have : v = ' ' :: v' := h.symm.trans hv'
      rw [this]
      rfl
    | succ k ih =>
      have h' : input.rest n = " ".toList ++ (Text.spaces k ++ v) := h
      have hstep := literal_yields .query (by decide) h'
      obtain ⟨as, has⟩ := ih (Text.rest_add h')
      have hle := Text.add_size_le h' (by decide)
      have hsize : Text.size " ".toList = 1 := by decide
      rw [hsize] at hstep has hle
      have := Repeats.step hstep (Nat.lt_succ_self n) hle has
      rw [List.nil_append, Nat.add_assoc, Nat.add_comm 1] at this
      exact ⟨_, this⟩
  obtain ⟨as, has⟩ := key
  exact has.many.map _

/-! ### Identifiers -/

/-- The spans of a sign and of the phrase right after it fit together. -/
theorem new?_eq_identifier (n : Nat) (x : OperandSpelling) :
    Identifier.new? (if x.negated then some (.ofLength n 1) else none)
      ⟨x.tag, .ofLength (n + x.signSize) x.word.size⟩ = some (x.identifier n) := by
  have hspan : Span.new? (Span.limit n) (Span.limit (n + x.signSize + x.word.size)) =
      some (.ofLength n x.text.size) := by
    rw [Span.new?_eq_some_iff, x.size_text]
    exact ⟨rfl, by rw [Span.ofLength, Nat.add_assoc]⟩
  obtain ⟨negated, tag, w, hw⟩ := x
  cases negated with
  | true => exact congrArg (Option.map _) hspan
  | false => exact congrArg (Option.map _) hspan

theorem sign_yields (x : OperandSpelling) (h : input.rest n = x.text ++ v) :
    (optional negation).Yields input n
      ⟨some (if x.negated then some (.ofLength n 1) else none), n + x.signSize,
        if x.negated then [] else [(n, .sign)]⟩ := by
  obtain ⟨negated, tag, w, hw⟩ := x
  cases negated with
  | true => exact (negation_yields (show input.rest n = '-' :: (w ++ v) from h)).optional
  | false =>
    refine (negation_yields_failed ?_).optional
    rw [show input.rest n = w ++ v from h]
    exact hw.head?_ne (by decide) v

/-- **An operand is read as an identifier.** -/
theorem identifier_yields (x : OperandSpelling) (h : input.rest n = x.text ++ v) :
    identifier.Yields input n ⟨some (x.identifier n), n + x.text.size, x.failures n⟩ := by
  have hnew := new?_eq_identifier n x
  have hsize := x.size_text
  have hlast : (orStuck .reversedSpan (Identifier.new?
      (if x.negated then some (.ofLength n 1) else none)
      ⟨x.tag, .ofLength (n + x.signSize) x.word.size⟩)).Yields input (n + x.signSize + x.word.size)
      ⟨some (x.identifier n), n + x.text.size, []⟩ := by
    rw [hnew, hsize, Nat.add_assoc]
    exact Yields.pure _
  have htag : Grammar.tag.Yields input (n + x.signSize)
      ⟨some ⟨x.tag, .ofLength (n + x.signSize) x.word.size⟩, n + x.signSize + x.word.size,
        x.tag.failures (n + x.signSize)⟩ :=
    tag_yields x.spelledBy_word (x.rest_word h)
  refine Yields.memoized (Yields.sequence (o := ⟨some _, _, _⟩) ?_) rfl
  refine Yields.of_eq ((sign_yields x h).bind (htag.bind hlast)) ?_
  simp only [Outcome.after_mk, List.append_nil]

theorem identifier_yields_gap (g : OperandGap) (h : input.rest n = g.text) :
    identifier.Yields input n ⟨none, n, g.failures n⟩ := by
  cases g with
  | unsigned rest noSign noPhrase =>
    have h' : input.rest n = rest := h
    have hneg : (optional negation).Yields input n ⟨some none, n, [(n, .sign)]⟩ :=
      (negation_yields_failed (h'.symm ▸ noSign)).optional
    have htag := tag_yields_failed (h'.symm ▸ noPhrase)
    refine Yields.memoized (Yields.sequence (o := ⟨none, n, _⟩) ?_) rfl
    exact Yields.of_eq (hneg.bind htag.bind_failed) rfl
  | signed rest noPhrase =>
    have h' : input.rest n = ['-'] ++ rest := h
    have hneg := (negation_yields h').optional
    have htag := tag_yields_failed (n := n + 1) ((Text.rest_add h').symm ▸ noPhrase)
    refine Yields.memoized (Yields.sequence (o := ⟨none, n + 1, _⟩) ?_) rfl
    exact Yields.of_eq (hneg.bind htag.bind_failed) rfl

/-! ### Clauses -/

theorem rest_operator {before after : Nat} {op : BinaryOp} (h : input.rest n =
      Text.spaces before ++ (op.symbol.toList ++ (Text.spaces after ++ v))) :
    input.rest (n + before + 1 + after) = v := by
  have hrest := Text.rest_add (Text.rest_add (Text.rest_add h))
  simpa only [Text.size_spaces, BinaryOp.size_symbol] using hrest

/-- An operator between spaces is read, and then the identifier decides. -/
theorem clause_yields_of_identifier {before after : Nat} {op : BinaryOp}
    {o : Outcome Identifier} (h : input.rest n =
      Text.spaces before ++ (op.symbol.toList ++ (Text.spaces after ++ v)))
    (hv : v.head? ≠ some ' ')
    (ho : identifier.Yields input (n + before + 1 + after) o) :
    clause.Yields input n (((o.map fun x => (⟨op, .ofLength (n + before) 1⟩, x)).after
      (op.failures n before after)).rewind n) := by
  have h₁ := Text.rest_add h
  rw [Text.size_spaces] at h₁
  have h₂ := Text.rest_add h₁
  rw [BinaryOp.size_symbol] at h₂
  have hbefore := spaces_yields h (BinaryOp.head?_symbol_append op _)
  have hop := binaryOp_yields h₁
  have hafter := spaces_yields h₂ hv
  have hlast : (do let x ← identifier
                   return (⟨op, .ofLength (n + before) 1⟩, x) :
      Action (Operator × Identifier)).Yields input (n + before + 1 + after)
      (o.map fun x => (⟨op, .ofLength (n + before) 1⟩, x)) := by
    obtain ⟨_ | x, stop, fs⟩ := o
    · exact ho.bind_failed
    · exact Yields.of_eq (ho.bind (Yields.pure _)) (by simp [Outcome.map])
  -- the failures come in the order of the parts: spaces, operator, spaces, identifier
  refine Yields.sequence ?_
  refine Yields.of_eq (hbefore.bind (hop.bind (hafter.bind hlast))) ?_
  simp [Outcome.after, BinaryOp.failures]

/-- **A clause is read as an operator and an identifier.** -/
theorem clause_yields (x : ClauseSpelling) (h : input.rest n = x.text ++ v) :
    clause.Yields input n ⟨some (x.parts n), n + x.text.size, x.failures n⟩ := by
  rw [ClauseSpelling.text_append] at h
  have hid := identifier_yields x.operand (rest_operator h)
  have key := clause_yields_of_identifier h (x.operand.head?_text_ne (by decide) v) hid
  rw [ClauseSpelling.size_text, ClauseSpelling.parts, ClauseSpelling.failures, ← Nat.add_assoc,
    ClauseSpelling.add_lead]
  exact key

theorem clause_yields_gap (g : ClauseGap) (h : input.rest n = g.text) :
    clause.Yields input n ⟨none, n, g.failures n⟩ := by
  cases g with
  | operator before rest noSpace noOperator =>
    have h' : input.rest n = Text.spaces before ++ rest := h
    have hbefore := spaces_yields h' noSpace
    have hrest : input.rest (n + before) = rest := by
      have := Text.rest_add h'
      rwa [Text.size_spaces] at this
    have hop := binaryOp_yields_failed (hrest.symm ▸ noOperator)
    refine Yields.of_eq (Yields.sequence (hbefore.bind hop.bind_failed)) ?_
    rfl
  | operand before op after gap noSpace =>
    have h' : input.rest n = Text.spaces before ++
        (op.symbol.toList ++ (Text.spaces after ++ gap.text)) := h
    exact clause_yields_of_identifier h' (ClauseGap.head?_gap_ne noSpace)
      (identifier_yields_gap gap (rest_operator h'))

/-- Clauses up to a gap are read one after the other, and the attempt at the gap is undone. -/
theorem clauses_repeat (xs : List ClauseSpelling) (g : ClauseGap)
    (h : input.rest n = xs.flatMap ClauseSpelling.text ++ g.text) :
    Repeats clause input n ⟨some (ClauseSpelling.partsAll n xs),
      n + Text.size (xs.flatMap ClauseSpelling.text),
      ClauseSpelling.failuresAll n xs ++
        g.failures (n + Text.size (xs.flatMap ClauseSpelling.text))⟩ := by
  induction xs generalizing n with
  | nil => exact Repeats.stop (clause_yields_gap g h)
  | cons x xs ih =>
    rw [List.flatMap_cons, List.append_assoc] at h
    have hpos : 0 < x.text.size := Text.size_pos x.text_ne_nil
    have key := Repeats.step (clause_yields x h) (by omega)
      (Text.add_size_le h x.text_ne_nil) (ih (Text.rest_add h))
    rw [List.flatMap_cons, Text.size_append, ← Nat.add_assoc, ClauseSpelling.failuresAll,
      List.append_assoc]
    exact key

/-! ### Queries -/

/-- **A query up to a gap is read**, and the failures at the gap are the last ones. -/
theorem query_yields (w : QuerySpelling) (g : ClauseGap) (h : input.rest n = w.text ++ g.text) :
    query.Yields input n ⟨some (w.query n), n + w.text.size,
      w.failures n ++ g.failures (n + w.text.size)⟩ := by
  have h' : input.rest n = w.head.text ++ (w.clauses.flatMap ClauseSpelling.text ++ g.text) := by
    rw [h, QuerySpelling.text, List.append_assoc]
  have hhead := identifier_yields w.head h'
  have hrest := (clauses_repeat w.clauses g (Text.rest_add h')).many
  have hspan : (orStuck .reversedSpan (Span.ofOffsets? n (n + w.text.size))).Yields input
      (n + w.text.size) ⟨some (.ofLength n w.text.size), n + w.text.size, []⟩ := by
    rw [Span.ofOffsets?_add]
    exact Yields.pure _
  have hsize : n + w.text.size =
      n + w.head.text.size + Text.size (w.clauses.flatMap ClauseSpelling.text) := by
    rw [QuerySpelling.text, Text.size_append, Nat.add_assoc]
  rw [← hsize] at hrest
  refine Yields.memoized (Yields.sequence (o := ⟨some _, _, _⟩) ?_) rfl
  refine Yields.of_eq (Yields.cursor.bind (hhead.bind (hrest.bind (Yields.cursor.bind
    (hspan.bind (Yields.pure (w.query n))))))) ?_
  simp [QuerySpelling.failures]

theorem query_yields_gap (g : OperandGap) (h : input.rest n = g.text) :
    query.Yields input n ⟨none, n, g.failures n⟩ := by
  refine Yields.memoized (Yields.sequence (o := ⟨none, n, _⟩) ?_) rfl
  exact Yields.of_eq (Yields.cursor.bind (identifier_yields_gap g h).bind_failed) rfl

end Grammar

end TagQuery
