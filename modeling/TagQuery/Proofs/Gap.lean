import TagQuery.Proofs.Failures
import TagQuery.Proofs.Spelling

/-!
# Where a text stops being a query

A gap is a text that cannot be read on: an `OperandGap` where an operand is due, a `ClauseGap`
where a clause is due.  It keeps what could still be read, and from that follow the place of the
gap and the tokens that are missing there.

* A text begins with an operand or is a gap, never both (`OperandGap.exists_or`,
  `OperandGap.text_ne`), and likewise for clauses.
* Hence a text is a gap, or it is a query followed by a gap (`ClauseGap.exists_query_append`).  The
  empty text is a gap for a clause, so queries are no exception.
* Of all failures met at a gap, the ones kept are those at its place (`ClauseGap.recordAll`).
-/

namespace TagQuery

namespace Expected

/-- The `-` of a negated tag. -/
def sign : Expected := .new .negation (.literal "-")

/-- A space around an operator. -/
def space : Expected := .new .query (.literal " ")

/-- The symbol of an operator. -/
def operator (op : BinaryOp) : Expected := .new .binaryOp (.literal op.symbol)

/-- The phrase of a tag, which the rule of its category asks for. -/
def tag (tag : Tag) : Expected := .new tag.category.rule (.phrase tag.phrase)

/-- Every operator, in the order in which they are tried. -/
def operators : List Expected := BinaryOp.all.map operator

/-- Every phrase, in the order in which they are tried. -/
def tags : List Expected := Tag.all.map tag

/-- Every token that a query can ask for. -/
def all : List Expected := space :: sign :: (operators ++ tags)

end Expected

/-- The failures met on the way over an operator with spaces before and after it, from `n` on. -/
def BinaryOp.failures (n before after : Nat) (op : BinaryOp) : Failures :=
  (Expected.space :: (BinaryOp.all.takeWhile (· ≠ op)).map Expected.operator).map
      (fun e => (n + before, e)) ++ [(n + before + 1 + after, Expected.space)]

/-- No phrase stands at the start of the text. -/
def Text.NoPhrase (t : Text) : Prop :=
  ∀ (tag : Tag) (w v : Text), tag.SpelledBy w → t ≠ w ++ v

/-- No operator stands at the start of the text. -/
def Text.NoOperator (t : Text) : Prop := ∀ (op : BinaryOp) (v : Text), t ≠ op.symbol.toList ++ v

/-- A text that does not begin with an operand. -/
inductive OperandGap where
  /-- There is no `-`, and no phrase either. -/
  | unsigned (rest : Text) (noSign : rest.head? ≠ some '-') (noPhrase : rest.NoPhrase)
  /-- There is a `-` and no phrase after it. -/
  | signed (rest : Text) (noPhrase : rest.NoPhrase)

/-- A text that does not begin with a clause. -/
inductive ClauseGap where
  /-- There is no operator after the spaces. -/
  | operator (before : Nat) (rest : Text) (noSpace : rest.head? ≠ some ' ')
    (noOperator : rest.NoOperator)
  /-- There is an operator between spaces and no operand after them. -/
  | operand (before : Nat) (op : BinaryOp) (after : Nat) (gap : OperandGap)
    (noSpace : ∀ rest noSign noPhrase, gap = .unsigned rest noSign noPhrase →
      rest.head? ≠ some ' ')

namespace OperandGap

/-- The text itself. -/
def text : OperandGap → Text
  | unsigned rest .. => rest
  | signed rest _ => '-' :: rest

/-- Where reading stops in a text that begins at `n`. -/
def place (n : Nat) : OperandGap → Nat
  | unsigned .. => n
  | signed .. => n + 1

/-- What is missing there. -/
def expected : OperandGap → List Expected
  | unsigned .. => Expected.sign :: Expected.tags
  | signed .. => Expected.tags

/-- The failures met in a text that begins at `n`. -/
def failures (n : Nat) (g : OperandGap) : Failures := g.expected.map fun e => (g.place n, e)

theorem text_ne (g : OperandGap) (x : OperandSpelling) (v : Text) : g.text ≠ x.text ++ v := by
  intro h
  obtain ⟨negated, tag, w, hw⟩ := x
  -- either the signs differ, or there is a phrase where none stands
  cases g with
  | unsigned rest noSign noPhrase =>
    cases negated with
    | true => exact noSign (by rw [show rest = _ from h]; rfl)
    | false => exact noPhrase tag w v hw (by simpa [text, OperandSpelling.text] using h)
  | signed rest noPhrase =>
    cases negated with
    | true => exact noPhrase tag w v hw (by simpa [text, OperandSpelling.text] using h)
    | false =>
      refine hw.head?_ne (c := '-') (by decide) v ?_
      have h' : '-' :: rest = w ++ v := by simpa [text, OperandSpelling.text] using h
      rw [← h']
      rfl

theorem exists_phrase_or (t : Text) :
    (∃ (tag : Tag) (w v : Text), tag.SpelledBy w ∧ t = w ++ v) ∨ t.NoPhrase := by
  by_cases h : ∃ (tag : Tag) (w v : Text), tag.SpelledBy w ∧ t = w ++ v
  · exact Or.inl h
  · exact Or.inr fun tag w v hw ht => h ⟨tag, w, v, hw, ht⟩

theorem exists_or (t : Text) :
    (∃ (x : OperandSpelling) (v : Text), t = x.text ++ v) ∨ ∃ g : OperandGap, t = g.text := by
  by_cases hs : t.head? = some '-'
  · obtain ⟨r, rfl⟩ : ∃ r, t = '-' :: r := by
      cases t with
      | nil => simp at hs
      | cons c r => exact ⟨r, by rw [Option.some.inj hs]⟩
    rcases exists_phrase_or r with ⟨tag, w, v, hw, rfl⟩ | hr
    · exact Or.inl ⟨⟨true, tag, w, hw⟩, v, rfl⟩
    · exact Or.inr ⟨signed r hr, rfl⟩
  · rcases exists_phrase_or t with ⟨tag, w, v, hw, rfl⟩ | ht
    · exact Or.inl ⟨⟨false, tag, w, hw⟩, v, rfl⟩
    · exact Or.inr ⟨unsigned t hs ht, rfl⟩

/-- Before an operand there are two lists of tokens to ask for. -/
theorem expected_cases (g : OperandGap) :
    g.expected = Expected.sign :: Expected.tags ∨ g.expected = Expected.tags := by
  cases g with
  | unsigned => exact Or.inl rfl
  | signed => exact Or.inr rfl

theorem expected_ne_nil (g : OperandGap) : g.expected ≠ [] := by
  rcases g.expected_cases with h | h <;> rw [h] <;> decide

theorem expected_subset (g : OperandGap) : g.expected ⊆ Expected.all := by
  rcases g.expected_cases with h | h <;> rw [h] <;> decide +kernel

theorem nodup_expected (g : OperandGap) : g.expected.Nodup := by
  rcases g.expected_cases with h | h <;> rw [h] <;> decide +kernel

theorem le_place (g : OperandGap) (n : Nat) : n ≤ g.place n := by
  cases g <;> simp [place]

/-- At a place after all earlier failures, the tokens missing at a gap are what is kept. -/
theorem recordAll {f : Furthest} {n : Nat} (g : OperandGap) (hf : f.offset ≤ n)
    (he : f.offset = g.place n → f.expected = []) :
    f.recordAll (g.failures n) = ⟨g.place n, g.expected⟩ :=
  Furthest.recordAll_at (Nat.le_trans hf (g.le_place n)) he g.expected_ne_nil g.nodup_expected

end OperandGap

namespace ClauseGap

/-- The text itself. -/
def text : ClauseGap → Text
  | operator before rest .. => Text.spaces before ++ rest
  | operand before op after gap _ =>
    Text.spaces before ++ (op.symbol.toList ++ (Text.spaces after ++ gap.text))

/-- Where reading stops in a text that begins at `n`. -/
def place (n : Nat) : ClauseGap → Nat
  | operator before .. => n + before
  | operand before _ after gap _ => gap.place (n + before + 1 + after)

/-- What is missing there. -/
def expected : ClauseGap → List Expected
  | operator .. => Expected.space :: Expected.operators
  | operand _ _ _ (.unsigned ..) _ => Expected.space :: Expected.sign :: Expected.tags
  | operand _ _ _ (.signed ..) _ => Expected.tags

/-- The failures met in a text that begins at `n`. -/
def failures (n : Nat) : ClauseGap → Failures
  | operator before .. =>
    (Expected.space :: Expected.operators).map fun e => (n + before, e)
  | operand before op after gap _ =>
    op.failures n before after ++ gap.failures (n + before + 1 + after)

theorem head?_gap_ne {gap : OperandGap} (noSpace : ∀ rest noSign noPhrase,
    gap = .unsigned rest noSign noPhrase → rest.head? ≠ some ' ') :
    gap.text.head? ≠ some ' ' := by
  cases gap with
  | unsigned rest noSign noPhrase => exact noSpace rest noSign noPhrase rfl
  | signed rest noPhrase => simp [OperandGap.text]

theorem text_ne (g : ClauseGap) (x : ClauseSpelling) (v : Text) : g.text ≠ x.text ++ v := by
  intro h
  rw [ClauseSpelling.text_append] at h
  cases g with
  | operator before rest noSpace noOperator =>
    obtain ⟨-, h⟩ := Text.spaces_append_inj noSpace (BinaryOp.head?_symbol_append _ _) h
    exact noOperator _ _ h
  | operand before op after gap noSpace =>
    obtain ⟨-, h⟩ := Text.spaces_append_inj (BinaryOp.head?_symbol_append _ _)
      (BinaryOp.head?_symbol_append _ _) h
    obtain ⟨-, h⟩ := BinaryOp.symbol_append_inj h
    obtain ⟨-, h⟩ := Text.spaces_append_inj (head?_gap_ne noSpace)
      (x.operand.head?_text_ne (by decide) _) h
    exact gap.text_ne _ _ h

/-- The end of a text. -/
def finish : ClauseGap := operator 0 [] (by simp) fun op v h => by cases op <;> cases h

@[simp] theorem text_finish : finish.text = [] := rfl

/-- Before a clause there are three lists of tokens to ask for. -/
theorem expected_cases (g : ClauseGap) :
    g.expected = Expected.space :: Expected.operators ∨
      g.expected = Expected.space :: Expected.sign :: Expected.tags ∨
        g.expected = Expected.tags := by
  rcases g with _ | ⟨_, _, _, _ | _, _⟩
  · exact Or.inl rfl
  · exact Or.inr (Or.inl rfl)
  · exact Or.inr (Or.inr rfl)

theorem expected_ne_nil (g : ClauseGap) : g.expected ≠ [] := by
  rcases g.expected_cases with h | h | h <;> rw [h] <;> decide

theorem expected_subset (g : ClauseGap) : g.expected ⊆ Expected.all := by
  rcases g.expected_cases with h | h | h <;> rw [h] <;> decide +kernel

theorem nodup_expected (g : ClauseGap) : g.expected.Nodup := by
  rcases g.expected_cases with h | h | h <;> rw [h] <;> decide +kernel

theorem le_place (g : ClauseGap) (n : Nat) : n ≤ g.place n := by
  cases g with
  | operator before => exact Nat.le_add_right n before
  | operand before op after gap =>
    have := gap.le_place (n + before + 1 + after)
    simp only [place]
    omega

theorem exists_or (t : Text) :
    (∃ (x : ClauseSpelling) (v : Text), t = x.text ++ v) ∨ ∃ g : ClauseGap, t = g.text := by
  obtain ⟨before, t, rfl, ht⟩ := Text.exists_eq_spaces_append t
  by_cases hop : ∃ (op : BinaryOp) (r : Text), t = op.symbol.toList ++ r
  · obtain ⟨op, r, rfl⟩ := hop
    obtain ⟨after, r, rfl, hr⟩ := Text.exists_eq_spaces_append r
    rcases OperandGap.exists_or r with ⟨x, v, rfl⟩ | ⟨gap, rfl⟩
    · refine Or.inl ⟨⟨before, op, after, x⟩, v, ?_⟩
      rw [ClauseSpelling.text_append]
    · refine Or.inr ⟨operand before op after gap ?_, rfl⟩
      rintro rest noSign noPhrase rfl
      exact hr
  · exact Or.inr ⟨operator before t ht fun op r h => hop ⟨op, r, h⟩, rfl⟩

theorem exists_clauses_append (t : Text) :
    ∃ (xs : List ClauseSpelling) (g : ClauseGap),
      t = xs.flatMap ClauseSpelling.text ++ g.text := by
  -- each clause makes the text shorter
  induction hl : t.length using Nat.strongRecOn generalizing t with
  | _ l ih =>
    rcases exists_or t with ⟨x, v, rfl⟩ | ⟨g, rfl⟩
    · have hx : 0 < x.text.length := List.length_pos_iff.2 x.text_ne_nil
      rw [List.length_append] at hl
      obtain ⟨xs, g, rfl⟩ := ih v.length (by omega) v rfl
      exact ⟨x :: xs, g, by simp⟩
    · exact ⟨[], g, by simp⟩

/-- **A text is a gap for an operand, or a query and a gap for a clause.** -/
theorem exists_query_append (t : Text) :
    (∃ g : OperandGap, t = g.text) ∨
      ∃ (w : QuerySpelling) (g : ClauseGap), t = w.text ++ g.text := by
  rcases OperandGap.exists_or t with ⟨x, v, rfl⟩ | hg
  · obtain ⟨xs, g, rfl⟩ := exists_clauses_append v
    exact Or.inr ⟨⟨x, xs⟩, g, by simp [QuerySpelling.text]⟩
  · exact Or.inl hg

/-- What comes before a gap is as much of the text as can be read. -/
theorem query_append_inj {w w' : QuerySpelling} {g : ClauseGap} {v : Text}
    (h : w.text ++ g.text = w'.text ++ v) :
    ∃ zs, w = ⟨w'.head, w'.clauses ++ zs⟩ ∧ v = zs.flatMap ClauseSpelling.text ++ g.text := by
  obtain ⟨x, xs⟩ := w
  obtain ⟨y, ys⟩ := w'
  simp only [QuerySpelling.text, List.append_assoc] at h
  obtain ⟨rfl, hxs⟩ := OperandSpelling.text_append_inj h
  clear h
  simp only [QuerySpelling.mk.injEq, true_and]
  -- the clauses are compared one by one; the first ones cannot run out before the second ones,
  -- because no clause begins at a gap
  induction ys generalizing xs with
  | nil => exact ⟨xs, rfl, by simpa using hxs.symm⟩
  | cons y ys ih =>
    rw [List.flatMap_cons, List.append_assoc] at hxs
    cases xs with
    | nil => exact absurd hxs (g.text_ne _ _)
    | cons x xs =>
      rw [List.flatMap_cons, List.append_assoc] at hxs
      obtain ⟨rfl, hys⟩ := ClauseSpelling.text_append_inj hxs
      obtain ⟨zs, rfl, hv⟩ := ih xs hys
      exact ⟨zs, rfl, hv⟩

/-- **At a gap behind all earlier failures, the tokens missing at its place are what is kept.** -/
theorem recordAll {f : Furthest} {n : Nat} (g : ClauseGap) (hf : f.offset < n) :
    f.recordAll (g.failures n) = ⟨g.place n, g.expected⟩ := by
  cases g with
  | operator before rest noSpace noOperator =>
    have hnd := (operator before rest noSpace noOperator).nodup_expected
    exact Furthest.recordAll_at (by omega) (fun h => by omega) (List.cons_ne_nil _ _) hnd
  | operand before op after gap noSpace =>
    let q := n + before + 1 + after
    let es := Expected.space :: (BinaryOp.all.takeWhile (· ≠ op)).map Expected.operator
    -- the failures before the operator are behind those after it
    have hlt : (f.recordAll (es.map fun e => (n + before, e))).offset < q := by
      refine Furthest.offset_recordAll_lt (by simp only [q]; omega) fun x hx => ?_
      obtain ⟨e, -, rfl⟩ := List.mem_map.1 hx
      simp only [q]
      omega
    have hsplit : (operand before op after gap noSpace).failures n =
        es.map (fun e => (n + before, e)) ++ (q, Expected.space) :: gap.failures q := by
      simp only [failures, BinaryOp.failures, List.append_assoc, List.singleton_append, es, q]
    rw [hsplit, Furthest.recordAll_append]
    cases gap with
    | unsigned rest noSign noPhrase =>
      -- nothing has been recorded here yet, so the space comes first
      have hnd := (operand before op after (.unsigned rest noSign noPhrase) noSpace).nodup_expected
      exact Furthest.recordAll_at (Nat.le_of_lt hlt) (fun h => absurd h (Nat.ne_of_lt hlt))
        (List.cons_ne_nil _ _) hnd
    | signed rest noPhrase =>
      -- the sign has been read, and what was missing before it is forgotten
      rw [Furthest.recordAll_cons, Furthest.record_of_lt _ hlt]
      exact (OperandGap.signed rest noPhrase).recordAll (Nat.le_refl q)
        fun h => absurd h (by simp [OperandGap.place])

end ClauseGap

end TagQuery
