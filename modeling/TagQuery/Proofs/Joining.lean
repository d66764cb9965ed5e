import TagQuery.Proofs.Continuation
import TagQuery.Proofs.Layout
import TagQuery.Proofs.Symbols

/-!
# Queries joined by an operator

A text that is written after a query and an operator is read as it would be read alone, only
further to the right.  If it is a query, the whole is one, with the parts of both
(`QuerySpelling.query_join`).  If it is not, the whole is rejected at the same place of it, with
the same tokens missing; one thing changes, as right after an operator a space could stand too
(`OperandGap.expected_behind`).

The other way round, a query can be cut at each of its operators (`parse_join`).
-/

namespace TagQuery

/-! ### Joined spellings -/

namespace QuerySpelling

variable (w w' : QuerySpelling) (i : Nat) (op : BinaryOp) (j n : Nat)

/-- Two queries with an operator between them, after `i` spaces and before `j`. -/
def join : QuerySpelling := ⟨w.head, w.clauses ++ ⟨i, op, j, w'.head⟩ :: w'.clauses⟩

theorem text_join : (w.join w' i op j).text =
    w.text ++ (Text.spaces i ++ (op.symbol.toList ++ (Text.spaces j ++ w'.text))) := by
  simp [join, text, ClauseSpelling.text]

theorem size_text_join :
    (w.join w' i op j).text.size = w.text.size + i + 1 + j + w'.text.size := by
  simp only [text_join, Text.size_append, Text.size_spaces, BinaryOp.size_symbol]
  omega

theorem rest_query_join : ((w.join w' i op j).query n).rest =
    (w.query n).rest ++ (⟨op, .ofLength (n + w.text.size + i) 1⟩,
      (w'.query (n + (w.text.size + i + 1 + j))).head) ::
        (w'.query (n + (w.text.size + i + 1 + j))).rest := by
  have hn : n + w.head.text.size + Text.size (w.clauses.flatMap ClauseSpelling.text) =
      n + w.text.size := by
    rw [text, Text.size_append, Nat.add_assoc]
  have hlead : n + w.text.size + (i + 1 + j) = n + (w.text.size + i + 1 + j) := by omega
  have hsize : n + w.text.size + (⟨i, op, j, w'.head⟩ : ClauseSpelling).text.size =
      n + (w.text.size + i + 1 + j) + w'.head.text.size := by
    rw [ClauseSpelling.size_text, ClauseSpelling.lead]
    simp only
    omega
  simp only [join, query, ClauseSpelling.partsAll_append, ClauseSpelling.partsAll, hn, hsize,
    ClauseSpelling.parts, ClauseSpelling.lead, hlead]

/-- The parts of two joined queries are those of the first, and those of the second moved. -/
theorem query_join (h : (w.join w' i op j).text.size ≤ Span.maxOffset) :
    ((w.join w' i op j).query 0).rest =
      (w.query 0).rest ++ (⟨op, .ofLength (w.text.size + i) 1⟩,
        ((w'.query 0).shift (w.text.size + i + 1 + j)).head) ::
          ((w'.query 0).shift (w.text.size + i + 1 + j)).rest := by
  have hbound : 0 + w'.text.size + (w.text.size + i + 1 + j) ≤ Span.maxOffset := by
    rw [size_text_join] at h
    omega
  rw [rest_query_join, w'.query_add hbound, Nat.zero_add]

end QuerySpelling

/-! ### Gaps behind an operator -/

theorem ClauseGap.place_add (g : ClauseGap) (d n : Nat) : g.place (d + n) = d + g.place n := by
  rw [g.place_eq, g.place_eq, Nat.add_assoc]

namespace OperandGap

variable (g : OperandGap) (i : Nat) (op : BinaryOp) (j : Nat) (h : g.text.head? ≠ some ' ')

/-- The gap behind an operator, after `i` spaces and before `j`. -/
def behind : ClauseGap :=
  .operand i op j g fun rest noSign noPhrase hg => by
    subst hg
    exact h

theorem text_behind : (g.behind i op j h).text =
    Text.spaces i ++ (op.symbol.toList ++ (Text.spaces j ++ g.text)) := rfl

theorem place_behind (n : Nat) : (g.behind i op j h).place n = n + i + 1 + j + g.place 0 := by
  show g.place (n + i + 1 + j) = _
  rw [g.place_eq, g.place_eq 0, Nat.zero_add]

/-- Right behind the operator and its spaces one more space could stand. -/
theorem expected_behind : (g.behind i op j h).expected =
    if g.place 0 = 0 then .space :: g.expected else g.expected := by
  cases g <;> rfl

end OperandGap

/-! ### Joined texts -/

/-- Two texts with an operator between them, after `i` spaces and before `j`. -/
def joinTexts (a : String) (i : Nat) (op : BinaryOp) (j : Nat) (b : String) : String :=
  a ++ .ofList (Text.spaces i) ++ op.symbol ++ .ofList (Text.spaces j) ++ b

theorem toList_joinTexts (a : String) (i : Nat) (op : BinaryOp) (j : Nat) (b : String) :
    (joinTexts a i op j b).toList =
      a.toList ++ (Text.spaces i ++ (op.symbol.toList ++ (Text.spaces j ++ b.toList))) := by
  simp [joinTexts]

/-- What the error `e` of a text comes to if the text stands `d` bytes further to the right, behind
a query of `m` bytes and an operator. -/
structure ParseError.Follows (m d : Nat) (e e' : ParseError) : Prop where
  offset : e'.offset = d + e.offset
  of_trailingInput : ∀ c, e.reason = .trailingInput c →
    e'.reason = .trailingInput (d + c) ∧ e'.expected = e.expected
  of_noMatch : e.reason = .noMatch → e'.reason = .trailingInput m ∧
    e'.expected = if e.offset = 0 then .space :: e.expected else e.expected

/-- The text `s` cut at the operator `o`, with the spaces next to it dropped. -/
structure Cuts (s : String) (o : Operator) (a b : String) : Prop where
  eq_join : ∃ i j, s = joinTexts a i o.op j b ∧ o.span = .ofLength (Text.size a.toList + i) 1
  getLast?_ne : a.toList.getLast? ≠ some ' '
  head?_ne : b.toList.head? ≠ some ' '

section

variable {a b : String} {i j : Nat} {op : BinaryOp}

/-- Two queries joined by an operator are a query, with the parts of both. -/
theorem exists_accepted_join {q r : Query} (ha : parse a = .accepted q)
    (hb : parse b = .accepted r)
    (h : Text.size (joinTexts a i op j b).toList ≤ Span.maxOffset) :
    ∃ p, parse (joinTexts a i op j b) = .accepted p ∧ p.head = q.head ∧
      p.rest = q.rest ++ (⟨op, .ofLength (Text.size a.toList + i) 1⟩,
        (r.shift (Text.size a.toList + i + 1 + j)).head) ::
          (r.shift (Text.size a.toList + i + 1 + j)).rest := by
  obtain ⟨w, hw, rfl⟩ := exists_of_accepted ha
  obtain ⟨w', hw', rfl⟩ := exists_of_accepted hb
  have ht : (joinTexts a i op j b).toList = (w.join w' i op j).text := by
    rw [toList_joinTexts, hw, hw', QuerySpelling.text_join]
  rw [ht] at h
  rw [hw]
  exact ⟨_, parseWith_of_text true _ ht, rfl, w.query_join w' i op j h⟩

/-- What is no query is none behind a query and an operator. -/
theorem exists_rejected_join {q : Query} {e : ParseError} (ha : parse a = .accepted q)
    (hspace : b.toList.head? ≠ some ' ') (hb : parse b = .rejected e) :
    ∃ e', parse (joinTexts a i op j b) = .rejected e' ∧
      e.Follows (Text.size a.toList) (Text.size a.toList + i + 1 + j) e' := by
  obtain ⟨w, hw, -⟩ := exists_of_accepted ha
  rcases exists_of_rejected hb with ⟨g, hg, rfl⟩ | ⟨w', g, hw', rfl⟩
  · -- no operand behind the operator: the first query is all that is read
    rw [hg] at hspace
    have ht : (joinTexts a i op j b).toList = w.text ++ (g.behind i op j hspace).text := by
      rw [toList_joinTexts, hw, hg, OperandGap.text_behind]
    have hne : (g.behind i op j hspace).text ≠ [] := by
      cases op <;> simp [OperandGap.text_behind, BinaryOp.symbol]
    refine ⟨_, parseWith_of_query true w _ ht hne, ?_, ?_, fun _ => ⟨?_, ?_⟩⟩
    · rw [hw]
      exact g.place_behind i op j hspace _
    · rintro c ⟨⟩
    · rw [hw]
      rfl
    · exact g.expected_behind i op j hspace
  · -- the second text begins with a query, so both are read as one up to the gap behind it
    have hne : g.text ≠ [] := fun hnil => by
      have hacc := parseWith_of_text true w' (by rw [hw', hnil, List.append_nil])
      cases hacc.symm.trans hb
    have ht : (joinTexts a i op j b).toList = (w.join w' i op j).text ++ g.text := by
      rw [toList_joinTexts, hw, hw', QuerySpelling.text_join]
      simp
    have hsize := w.size_text_join w' i op j
    refine ⟨_, parseWith_of_query true _ g ht hne, ?_, ?_, ?_⟩
    · rw [hw, hsize]
      exact g.place_add _ _
    · rintro c ⟨⟩
      rw [hw, hsize]
      exact ⟨rfl, rfl⟩
    · rintro ⟨⟩

theorem exists_cuts {s : String} {q : Query} (hq : parse s = .accepted q)
    {x : Operator × Identifier} (hx : x ∈ q.rest) : ∃ a b, Cuts s x.1 a b := by
  obtain ⟨w, hw, rfl⟩ := exists_of_accepted hq
  obtain ⟨ys, y, zs, hclauses, rfl⟩ := ClauseSpelling.exists_of_mem_partsAll hx
  -- the operand of the clause becomes the head of the second query
  let front : QuerySpelling := ⟨w.head, ys⟩
  let back : QuerySpelling := ⟨y.operand, zs⟩
  refine ⟨.ofList front.text, .ofList back.text, ⟨y.before, y.after, ?_, ?_⟩, ?_, ?_⟩
  · apply String.toList_inj.1
    have hjoin : w = front.join back y.before y.op y.after := by
      obtain ⟨head, clauses⟩ := w
      exact congrArg (QuerySpelling.mk head) hclauses
    rw [hw, toList_joinTexts, String.toList_ofList, String.toList_ofList]
    exact (congrArg QuerySpelling.text hjoin).trans (front.text_join back _ _ _)
  · rw [String.toList_ofList, QuerySpelling.text, Text.size_append]
    simp only [ClauseSpelling.parts, Nat.zero_add, front]
  · rw [String.toList_ofList]
    exact front.getLast?_text_ne
  · rw [String.toList_ofList]
    exact back.head?_text_ne

theorem accepted_of_cuts {s : String} {q : Query} (hq : parse s = .accepted q) {o : Operator}
    (h : Cuts s o a b) : (∃ r, parse a = .accepted r) ∧ ∃ r, parse b = .accepted r := by
  obtain ⟨w, hw, -⟩ := exists_of_accepted hq
  obtain ⟨⟨i, j, rfl, -⟩, hlast, hhead⟩ := h
  rw [toList_joinTexts, ← List.append_assoc] at hw
  obtain ⟨ys, y, zs, -, -, hfront, hback⟩ := QuerySpelling.exists_of_symbol hw.symm
  obtain ⟨ha, -⟩ := Text.append_spaces_inj hlast (QuerySpelling.getLast?_text_ne _) hfront
  obtain ⟨-, hb⟩ := Text.spaces_append_inj hhead (QuerySpelling.head?_text_ne _) hback
  exact ⟨exists_accepted_of_text ha, exists_accepted_of_text hb⟩

end

/-- **Reading is compositional at operators.**  Let a query be followed by an operator between
spaces and a text that does not begin with one.  If the text is a query, so is the whole, with the
identifiers and operators of both and the new operator between them; those of the second keep their
places in it.  If the text is rejected, so is the whole, at the same place for the same reason.
And wherever a query is cut at an operator, there are queries on both sides. -/
theorem parse_join :
    (∀ (a b : String) (i : Nat) (op : BinaryOp) (j : Nat) (q : Query), parse a = .accepted q →
      b.toList.head? ≠ some ' ' →
        let m := Text.size a.toList
        let d := m + i + 1 + j
        let s := joinTexts a i op j b
        (∀ r, parse b = .accepted r → Text.size s.toList ≤ Span.maxOffset →
          ∃ p, parse s = .accepted p ∧
            p.identifiers = q.identifiers ++ (r.shift d).identifiers ∧
            p.rest.map Prod.fst =
              q.rest.map Prod.fst ++ ⟨op, .ofLength (m + i) 1⟩ :: (r.shift d).rest.map Prod.fst ∧
            p.operators = q.operators ++ op :: r.operators) ∧
        ∀ e, parse b = .rejected e → ∃ e', parse s = .rejected e' ∧ e.Follows m d e') ∧
    ∀ (s : String) (q : Query), parse s = .accepted q →
      (∀ x ∈ q.rest, ∃ a b, Cuts s x.1 a b) ∧
      ∀ o a b, Cuts s o a b → (∃ r, parse a = .accepted r) ∧ ∃ r, parse b = .accepted r := by
  refine ⟨fun a b i op j q ha hspace => ⟨fun r hb hsize => ?_, fun e hb => ?_⟩, fun s q hq => ?_⟩
  · obtain ⟨p, hp, hhead, hrest⟩ := exists_accepted_join ha hb hsize
    refine ⟨p, hp, ?_, ?_, ?_⟩
    · simp [Query.identifiers, hhead, hrest]
    · simp [hrest]
    · simp [Query.operators, hrest, Query.shift, Operator.shift, Function.comp_def]
  · exact exists_rejected_join ha hspace hb
  · exact ⟨fun x hx => exists_cuts hq hx, fun o a b h => accepted_of_cuts hq h⟩

/-- Behind `booster | `, an identifier is read as it is alone, and `Subjects` is rejected as it is
alone; the first of the two texts is a query on both sides of its operator. -/
theorem parse_join_subject :
    (∃ p, parse (joinTexts "booster" 1 .or 1 "-Subject") = .accepted p ∧ p.operators = [.or] ∧
      ∃ x ∈ p.rest, ∃ a b, Cuts (joinTexts "booster" 1 .or 1 "-Subject") x.1 a b) ∧
    (∃ e, parse (joinTexts "booster" 1 .or 1 "Subjects") = .rejected e ∧ e.offset = 17 ∧
      e.reason = .trailingInput 17) ∧
    (∃ r, parse "booster" = .accepted r) ∧ ∃ r, parse "-Subject" = .accepted r := by
  have ha : parse "booster" = .accepted
      ⟨⟨none, ⟨.booster, .ofLength 0 7⟩, .ofLength 0 7⟩, [], .ofLength 0 7⟩ := by
    decide +kernel
  have hb : parse "-Subject" = .accepted ⟨⟨some (.ofLength 0 1), ⟨.subject, .ofLength 1 7⟩,
      .ofLength 0 8⟩, [], .ofLength 0 8⟩ := by
    decide +kernel
  have he : parse "Subjects" = .rejected (.ofFailure "Subjects".toList 7
      (Expected.space :: Expected.operators) (.trailingInput 7)) := by
    decide +kernel
  have hcuts : Cuts (joinTexts "booster" 1 .or 1 "-Subject") ⟨.or, .ofLength 8 1⟩ "booster"
      "-Subject" := ⟨⟨1, 1, rfl, rfl⟩, by decide, by decide⟩
  obtain ⟨p, hp, -, hops, hop⟩ :=
    (parse_join.1 "booster" "-Subject" 1 .or 1 _ ha (by decide)).1 _ hb (by decide)
  obtain ⟨e, hrej, hfollows⟩ :=
    (parse_join.1 "booster" "Subjects" 1 .or 1 _ ha (by decide)).2 _ he
  obtain ⟨x, hx⟩ : ∃ x, x ∈ p.rest := List.exists_mem_of_ne_nil _ fun hnil => by
    simp [hnil] at hops
  exact ⟨⟨p, hp, hop, x, hx, (parse_join.2 _ p hp).1 x hx⟩,
    ⟨e, hrej, hfollows.offset, (hfollows.of_trailingInput 7 rfl).1⟩,
    (parse_join.2 _ p hp).2 _ _ _ hcuts⟩

end TagQuery
