import TagQuery.Proofs.Exactness
import TagQuery.Proofs.Layout
import TagQuery.Proofs.Symbols

/-!
# The spans of a query tile its text

The identifiers and operators of a query that was read from a text stand in it one after the other,
with nothing between two of them but spaces (`Text.Lined`); the first begins where the text does and
the last ends where it does.  So every byte of the text is accounted for (`Query.Tiles`), and
what stands at each span is what the part says (`Identifier.StandsIn`).

Spans say so as long as the text is no longer than `Span.maxOffset`; the number of operators is
right in any case (`accepted_tiles`).
-/

namespace TagQuery

variable {t u v w : Text} {m n : Nat}

/-! ### What is said about spans -/

/-- What stands in `t` at a span. -/
def Span.cut? (s : Span) (t : Text) : Option Text := t.slice? s.start s.stop

/-- The parts of an identifier stand in `t` where it says. -/
structure Identifier.StandsIn (x : Identifier) (t : Text) : Prop where
  /-- At the span of the tag stands its phrase. -/
  spelledBy_tag : ∃ w, x.tag.span.cut? t = some w ∧ x.tag.tag.SpelledBy w
  /-- The identifier is negated if and only if it begins with a `-`. -/
  isNegated_iff : ∃ w, x.span.cut? t = some w ∧ (x.isNegated ↔ w.head? = some '-')
  /-- The `-` is the first byte, and the tag begins right after it. -/
  of_negated : x.isNegated → ∃ sign, x.negation = some sign ∧ sign.start = x.span.start ∧
    sign.stop = x.span.start + 1 ∧ x.tag.span.start = sign.stop
  /-- Without a `-` there is only the tag. -/
  of_not_negated : ¬ x.isNegated → x.span = x.tag.span

namespace Query

/-- The identifiers and operators from left to right. -/
def pieces (q : Query) : List Node :=
  .identifier q.head :: q.rest.flatMap fun c => [.binaryOp c.1, .identifier c.2]

/-- The spans of the query tile the text `t`. -/
structure Tiles (q : Query) (t : Text) : Prop where
  start_eq : q.span.start = 0
  stop_eq : q.span.stop = t.size
  nonempty : ∀ x ∈ q.pieces, x.span.start < x.span.stop
  ordered : q.pieces.Pairwise fun x y => x.span.stop ≤ y.span.start
  first : q.pieces.head?.map (·.span.start) = some 0
  last : q.pieces.getLast?.map (·.span.stop) = some t.size
  /-- Each byte belongs to a piece, or is a space between an identifier and an operator. -/
  covered : ∀ i < t.size, (∃ x ∈ q.pieces, x.span.start ≤ i ∧ i < x.span.stop) ∨
    t.slice? i (i + 1) = some [' '] ∧ ∃ x y, [x, y] <:+: q.pieces ∧
      (x.kind, y.kind) ∈ [(NodeKind.identifier, .binaryOp), (.binaryOp, .identifier)] ∧
      x.span.stop ≤ i ∧ i < y.span.start
  operators : ∀ c ∈ q.rest, c.1.span.cut? t = some c.1.op.symbol.toList
  identifiers : ∀ x ∈ q.identifiers, x.StandsIn t

end Query

/-! ### Nodes in a line -/

namespace Text

/-- The nodes stand in `t` one after the other, from `n` to `m`, with only spaces before each. -/
inductive Lined (t : Text) : Nat → List Node → Nat → Prop
  | nil (n : Nat) : Lined t n [] n
  | cons {n k m : Nat} {x : Node} {xs : List Node} {v : Text} (space : t.rest n = spaces k ++ v)
    (start : x.span.start = n + k) (nonempty : x.span.start < x.span.stop)
    (rest : Lined t x.span.stop xs m) : Lined t n (x :: xs) m

namespace Lined

variable {x : Node} {xs : List Node}

theorem tail (h : t.Lined n (x :: xs) m) : t.Lined x.span.stop xs m := by
  cases h with
  | cons space start nonempty rest => exact rest

theorem le_start (h : t.Lined n xs m) : ∀ x ∈ xs, n ≤ x.span.start := by
  induction h with
  | nil n => simp
  | cons space start nonempty rest ih =>
    intro y hy
    rcases List.mem_cons.1 hy with rfl | hy
    · omega
    · have := ih y hy
      omega

theorem nonempty (h : t.Lined n xs m) : ∀ x ∈ xs, x.span.start < x.span.stop := by
  induction h with
  | nil n => simp
  | cons space start nonempty rest ih =>
    intro y hy
    rcases List.mem_cons.1 hy with rfl | hy
    · exact nonempty
    · exact ih y hy

theorem ordered (h : t.Lined n xs m) :
    xs.Pairwise fun x y => x.span.stop ≤ y.span.start := by
  induction h with
  | nil n => exact .nil
  | cons space start nonempty rest ih => exact .cons rest.le_start ih

theorem last (h : t.Lined n (x :: xs) m) : (x :: xs).getLast?.map (·.span.stop) = some m := by
  induction xs generalizing n x with
  | nil =>
    cases h.tail with
    | nil => rfl
  | cons y ys ih =>
    rw [List.getLast?_cons_cons]
    exact ih h.tail

/-- Each byte behind the first node belongs to a node, or is a space between two neighbours. -/
theorem covered (h : t.Lined n (x :: xs) m) {i : Nat} (hi : x.span.stop ≤ i) (him : i < m) :
    (∃ y ∈ xs, y.span.start ≤ i ∧ i < y.span.stop) ∨
      t.slice? i (i + 1) = some [' '] ∧ ∃ y z, [y, z] <:+: x :: xs ∧ y.span.stop ≤ i ∧
        i < z.span.start := by
  induction xs generalizing n x with
  | nil =>
    cases h.tail with
    | nil => omega
  | cons y ys ih =>
    have htail := h.tail
    rcases Nat.lt_or_ge i y.span.start with hlt | hge
    · -- the byte is one of the spaces before the next node
      cases htail with
      | cons space start nonempty rest =>
        exact Or.inr ⟨slice?_of_spaces space hi (by omega), x, y, ⟨[], ys, rfl⟩, hi, hlt⟩
    · rcases Nat.lt_or_ge i y.span.stop with hlt | hge'
      · exact Or.inl ⟨y, List.mem_cons_self, hge, hlt⟩
      · rcases ih htail hge' with ⟨z, hz, hin⟩ | ⟨hspace, a, b, hab, hbetween⟩
        · exact Or.inl ⟨z, List.mem_cons_of_mem y hz, hin⟩
        · exact Or.inr ⟨hspace, a, b, hab.trans (List.suffix_cons x _).isInfix, hbetween⟩

end Lined

end Text

namespace Query

theorem kinds_alternate (q : Query) {x y : Node} (h : [x, y] <:+: q.pieces) :
    (x.kind, y.kind) ∈ [(NodeKind.identifier, .binaryOp), (.binaryOp, .identifier)] := by
  obtain ⟨head, rest, span⟩ := q
  simp only [pieces] at h
  clear span
  induction rest generalizing head with
  | nil =>
    have := h.length_le
    simp at this
  | cons c cs ih =>
    rw [List.flatMap_cons, List.cons_append, List.cons_append, List.nil_append,
      List.infix_cons_iff, List.infix_cons_iff] at h
    rcases h with h | h | h
    · -- the first identifier and the operator behind it
      simp only [List.cons_prefix_cons] at h
      obtain ⟨rfl, rfl, -⟩ := h
      exact List.mem_cons_self
    · -- that operator and the next identifier
      simp only [List.cons_prefix_cons] at h
      obtain ⟨rfl, rfl, -⟩ := h
      exact List.mem_cons_of_mem _ List.mem_cons_self
    · exact ih c.2 h

/-- In a query whose pieces stand in a line from its head on, each byte belongs to a piece or is a
space between an identifier and an operator. -/
theorem covered {q : Query} (h : t.Lined n q.pieces m) {i : Nat} (hi : q.head.span.start ≤ i)
    (him : i < m) : (∃ x ∈ q.pieces, x.span.start ≤ i ∧ i < x.span.stop) ∨
      t.slice? i (i + 1) = some [' '] ∧ ∃ x y, [x, y] <:+: q.pieces ∧
        (x.kind, y.kind) ∈ [(NodeKind.identifier, .binaryOp), (.binaryOp, .identifier)] ∧
        x.span.stop ≤ i ∧ i < y.span.start := by
  rcases Nat.lt_or_ge i q.head.span.stop with hlt | hge
  · exact Or.inl ⟨.identifier q.head, List.mem_cons_self, hi, hlt⟩
  · rcases h.covered hge him with ⟨y, hy, hin⟩ | ⟨hspace, y, z, hyz, hbetween⟩
    · exact Or.inl ⟨y, List.mem_cons_of_mem _ hy, hin⟩
    · exact Or.inr ⟨hspace, y, z, hyz, q.kinds_alternate hyz, hbetween⟩

end Query

/-! ### What is read stands where it says -/

/-- The span of a piece of text cuts it out again. -/
theorem Span.cut?_ofLength (h : t.rest n = w ++ v) (hw : w ≠ [])
    (hmax : n + w.size ≤ Span.maxOffset) : (Span.ofLength n w.size).cut? t = some w := by
  rw [cut?, start_ofLength hmax, stop_ofLength hmax]
  exact (Text.slice?_eq_some_iff_rest (Text.size_pos hw)).2 ⟨v, h, rfl⟩

namespace OperandSpelling

theorem isNegated_identifier (x : OperandSpelling) (n : Nat) :
    (x.identifier n).isNegated = x.negated := congrArg Operand.negated (x.operand_identifier n)

/-- An operand is negated if and only if it begins with a `-`. -/
theorem negated_iff_head? (x : OperandSpelling) : x.negated ↔ x.text.head? = some '-' := by
  obtain ⟨negated, tag, w, hw⟩ := x
  cases negated with
  | true => exact iff_of_true rfl rfl
  | false =>
    have hword := hw.head?_ne (c := '-') (by decide) []
    rw [List.append_nil] at hword
    exact iff_of_false Bool.false_ne_true hword

theorem standsIn (x : OperandSpelling) (h : t.rest n = x.text ++ v)
    (hmax : n + x.text.size ≤ Span.maxOffset) : (x.identifier n).StandsIn t := by
  have hsize := x.size_text
  have hcut := Span.cut?_ofLength h x.text_ne_nil hmax
  have hword := Span.cut?_ofLength (x.rest_word h) x.spelledBy_word.ne_nil (by omega)
  have hnegated := x.isNegated_identifier n
  -- left are: when it is negated, and where the sign and the phrase begin if it is and if not
  refine ⟨⟨_, hword, x.spelledBy_word⟩, ⟨_, hcut, ?_⟩, fun hx => ?_, fun hx => ?_⟩
  · rw [hnegated]
    exact x.negated_iff_head?
  · rw [hnegated] at hx
    have hsign : x.signSize = 1 := by rw [signSize, if_pos hx]
    have hlim : Span.limit (n + 1) = Span.limit n + 1 := by
      rw [Span.limit_of_le (by omega), Span.limit_of_le (by omega)]
    refine ⟨.ofLength n 1, ?_, rfl, hlim, ?_⟩
    · rw [identifier, if_pos hx]
    · show Span.limit (n + x.signSize) = Span.limit (n + 1)
      rw [hsign]
  · rw [hnegated] at hx
    have hsign : x.signSize = 0 := by rw [signSize, if_neg hx]
    rw [identifier, hsize, hsign, Nat.zero_add, Nat.add_zero]

end OperandSpelling

namespace ClauseSpelling

theorem cut?_operator (x : ClauseSpelling) (h : t.rest n = x.text ++ v)
    (hmax : n + x.text.size ≤ Span.maxOffset) :
    (x.parts n).1.span.cut? t = some x.op.symbol.toList := by
  have hsize := x.size_text
  have hlead := x.add_lead n
  have hop := BinaryOp.size_symbol x.op
  have hne : x.op.symbol.toList ≠ [] := by
    intro hnil
    rw [hnil] at hop
    cases hop
  rw [text_append] at h
  have hrest := Text.rest_add h
  rw [Text.size_spaces] at hrest
  have key := Span.cut?_ofLength hrest hne (by omega)
  rwa [hop] at key

theorem standsIn_identifier (x : ClauseSpelling) (h : t.rest n = x.text ++ v)
    (hmax : n + x.text.size ≤ Span.maxOffset) : (x.parts n).2.StandsIn t := by
  have hsize := x.size_text
  rw [text_append] at h
  have hrest := Grammar.rest_operator h
  rw [← x.add_lead] at hrest
  exact x.operand.standsIn hrest (by omega)

/-- An operator and an identifier are read from a clause in a line, and more nodes may follow. -/
theorem lined_parts (x : ClauseSpelling) {xs : List Node} (h : t.rest n = x.text ++ v)
    (hmax : n + x.text.size ≤ Span.maxOffset) (hxs : t.Lined (n + x.text.size) xs m) :
    t.Lined n (.binaryOp (x.parts n).1 :: .identifier (x.parts n).2 :: xs) m := by
  have hsize := x.size_text
  have hlead := x.add_lead n
  have hpos : 0 < x.operand.text.size := Text.size_pos x.operand.text_ne_nil
  rw [text_append] at h
  have hbehind := Text.rest_add (Text.rest_add h)
  rw [Text.size_spaces, BinaryOp.size_symbol] at hbehind
  -- where the operator and the identifier begin and end
  have hop : (Node.binaryOp (x.parts n).1).span.start = n + x.before :=
    Span.start_ofLength (by omega)
  have hop' : (Node.binaryOp (x.parts n).1).span.stop = n + x.before + 1 :=
    Span.stop_ofLength (by omega)
  have hid : (Node.identifier (x.parts n).2).span.start = n + x.lead :=
    Span.start_ofLength (by omega)
  have hid' : (Node.identifier (x.parts n).2).span.stop = n + x.text.size := by
    rw [hsize, ← Nat.add_assoc]
    exact Span.stop_ofLength (by omega)
  rw [← hid'] at hxs
  refine .cons h hop (by omega) ?_
  rw [hop']
  exact .cons hbehind (hid.trans hlead) (by omega) hxs

theorem lined (xs : List ClauseSpelling) (h : t.rest n = xs.flatMap text ++ v)
    (hmax : n + Text.size (xs.flatMap text) ≤ Span.maxOffset) :
    t.Lined n ((partsAll n xs).flatMap fun c => [.binaryOp c.1, .identifier c.2])
      (n + Text.size (xs.flatMap text)) := by
  induction xs generalizing n with
  | nil => exact .nil n
  | cons x xs ih =>
    rw [List.flatMap_cons, List.append_assoc] at h
    rw [List.flatMap_cons, Text.size_append, ← Nat.add_assoc] at hmax ⊢
    exact x.lined_parts h (by omega) (ih (Text.rest_add h) hmax)

end ClauseSpelling

namespace QuerySpelling

theorem lined (w : QuerySpelling) (h : t.rest n = w.text ++ v)
    (hmax : n + w.text.size ≤ Span.maxOffset) :
    t.Lined n (w.query n).pieces (n + w.text.size) := by
  have hpos : 0 < w.head.text.size := Text.size_pos w.head.text_ne_nil
  rw [text, List.append_assoc] at h
  rw [text, Text.size_append, ← Nat.add_assoc] at hmax ⊢
  have hstart : (Node.identifier (w.query n).head).span.start = n :=
    Span.start_ofLength (by omega)
  have hstop : (Node.identifier (w.query n).head).span.stop = n + w.head.text.size :=
    Span.stop_ofLength (by omega)
  refine .cons (k := 0) h hstart (by omega) ?_
  rw [hstop]
  exact ClauseSpelling.lined w.clauses (Text.rest_add h) hmax

/-- Each operator and identifier behind the first is read from a clause that stands in the text. -/
theorem exists_clause {w : QuerySpelling} (h : t.rest n = w.text ++ v) {c : Operator × Identifier}
    (hc : c ∈ (w.query n).rest) :
    ∃ (y : ClauseSpelling) (m : Nat) (v' : Text), c = y.parts m ∧ t.rest m = y.text ++ v' ∧
      m + y.text.size ≤ n + w.text.size := by
  obtain ⟨ys, y, zs, hclauses, rfl⟩ := ClauseSpelling.exists_of_mem_partsAll hc
  have htext : w.text = w.head.text ++ (ys.flatMap ClauseSpelling.text ++
      (y.text ++ zs.flatMap ClauseSpelling.text)) := by
    simp [text, hclauses]
  refine ⟨y, _, zs.flatMap ClauseSpelling.text ++ v, rfl, ?_, ?_⟩
  · rw [htext] at h
    simp only [List.append_assoc] at h
    exact Text.rest_add (Text.rest_add h)
  · simp only [htext, Text.size_append]
    omega

theorem cut?_operators (w : QuerySpelling) (h : t.rest n = w.text ++ v)
    (hmax : n + w.text.size ≤ Span.maxOffset) :
    ∀ c ∈ (w.query n).rest, c.1.span.cut? t = some c.1.op.symbol.toList := by
  intro c hc
  obtain ⟨y, m, v', rfl, hy, hle⟩ := exists_clause h hc
  exact y.cut?_operator hy (by omega)

theorem standsIn_identifiers (w : QuerySpelling) (h : t.rest n = w.text ++ v)
    (hmax : n + w.text.size ≤ Span.maxOffset) :
    ∀ x ∈ (w.query n).identifiers, x.StandsIn t := by
  intro x hx
  rcases List.mem_cons.1 hx with rfl | hx
  · rw [text, List.append_assoc] at h
    rw [text, Text.size_append] at hmax
    exact w.head.standsIn h (by omega)
  · obtain ⟨c, hc, rfl⟩ := List.mem_map.1 hx
    obtain ⟨y, m, v', rfl, hy, hle⟩ := exists_clause h hc
    exact y.standsIn_identifier hy (by omega)

/-- **The spans of a query tile the text** that it is read from, if spans can say so. -/
theorem tiles (w : QuerySpelling) (hmax : w.text.size ≤ Span.maxOffset) :
    (w.query 0).Tiles w.text := by
  have hrest : w.text.rest 0 = w.text ++ [] := by rw [Text.rest_zero, List.append_nil]
  rw [← Nat.zero_add w.text.size] at hmax
  have hlined := w.lined hrest hmax
  have hstop : (w.query 0).span.stop = 0 + w.text.size := Span.stop_ofLength hmax
  rw [Nat.zero_add] at hlined hstop
  exact
    { start_eq := rfl
      stop_eq := hstop
      nonempty := hlined.nonempty
      ordered := hlined.ordered
      first := rfl
      last := hlined.last
      covered := fun i hi => Query.covered hlined (Nat.zero_le i) hi
      operators := w.cut?_operators hrest hmax
      identifiers := w.standsIn_identifiers hrest hmax }

theorem length_rest_query (w : QuerySpelling) (n : Nat) :
    (w.query n).rest.length = w.clauses.length := by
  rw [query, ← List.length_map, ClauseSpelling.map_partsAll, List.length_map]

end QuerySpelling

/-- **The spans of a query tile its text.**  The identifiers and operators that are read stand in
the text one after the other, from its first byte to its last one, with nothing but spaces between
an identifier and an operator, and each is what stands at its span.  There are as many operators as
symbols of operators in the text. -/
theorem accepted_tiles (s : String) (q : Query) (h : parse s = .accepted q) :
    (Text.size s.toList ≤ Span.maxOffset → q.Tiles s.toList) ∧
      q.rest.length = s.toList.countP (· ∈ ['|', '&']) := by
  obtain ⟨w, hw, rfl⟩ := exists_of_accepted h
  rw [hw, w.countP_symbol, w.length_rest_query]
  exact ⟨w.tiles, rfl⟩

/-- Neither the dash of a phrase nor the space in it is taken for anything else. -/
theorem accepted_tiles_dash : ∃ q, parse "-word-Formation &  Verb Predicate" = .accepted q ∧
    q.Tiles "-word-Formation &  Verb Predicate".toList ∧ q.rest.length = 1 := by
  have h : parse "-word-Formation &  Verb Predicate" = .accepted
      ⟨⟨some (.ofLength 0 1), ⟨.wordFormation, .ofLength 1 14⟩, .ofLength 0 15⟩,
        [(⟨.and, .ofLength 16 1⟩,
          ⟨none, ⟨.verbPredicate, .ofLength 19 14⟩, .ofLength 19 14⟩)],
        .ofLength 0 33⟩ := by
    decide +kernel
  have key := accepted_tiles _ _ h
  exact ⟨_, h, key.1 (by decide), key.2⟩

end TagQuery
