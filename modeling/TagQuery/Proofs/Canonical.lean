import TagQuery.Proofs.Longest

/-!
# Canonical spellings are read back

The canonical spelling of an outline is one of its spellings, so it is a query that says the same
(`Outline.exists_parse_render`), and likewise for a single operand (`Operand.exists_parse_render`).
Spans have no part in this: a query with any spans, be it read from a text or not, is written and
read back up to its spans (`parse_render`).
-/

namespace TagQuery

theorem Outline.exists_parse_render (o : Outline) :
    ∃ q, parse o.render = .accepted q ∧ q.outline = o := by
  have hread := parseWith_of_text true (.canonical o) (QuerySpelling.text_canonical o).symm
  exact ⟨_, hread, by rw [QuerySpelling.outline_query, QuerySpelling.outline_canonical]⟩

theorem Operand.exists_parse_render (x : Operand) :
    ∃ y, parseRule .identifier x.render = .accepted (.identifier y) ∧ y.operand = x := by
  have htext := OperandSpelling.text_canonical x
  have hrest : Text.rest x.render.toList 0 = (OperandSpelling.canonical x).text ++ [] := by
    rw [Text.rest_zero, htext, List.append_nil]
  have hread : parseRule .identifier x.render = _ :=
    parseRuleWith_eq true ((Grammar.identifier_yields _ hrest).map Node.identifier)
  refine ⟨(OperandSpelling.canonical x).identifier 0, ?_, ?_⟩
  · rw [hread]
    simp [Outcome.verdict, Outcome.map, htext]
  · rw [OperandSpelling.operand_identifier, OperandSpelling.operand_canonical]

/-- **Writing and reading are inverse.**  Every query is written as a text that is read as a query
with the same outline, which is written in the same way; in particular, so is every query that was
read from a text.  The same goes for an identifier and the rule of identifiers. -/
theorem parse_render :
    (∀ x : Query, ∃ y, parse x.render = .accepted y ∧ y.outline = x.outline ∧
      y.render = x.render) ∧
    (∀ (s : String) (q : Query), parse s = .accepted q →
      ∃ y, parse q.render = .accepted y ∧ y.outline = q.outline) ∧
    ∀ x : Identifier, ∃ y, parseRule .identifier x.render = .accepted (.identifier y) ∧
      y.operand = x.operand ∧ y.render = x.render := by
  refine ⟨fun x => ?_, fun s q _ => q.outline.exists_parse_render, fun x => ?_⟩
  · obtain ⟨y, hy, hout⟩ := x.outline.exists_parse_render
    exact ⟨y, hy, hout, congrArg Outline.render hout⟩
  · obtain ⟨y, hy, hop⟩ := x.operand.exists_parse_render
    exact ⟨y, hy, hop, congrArg Operand.render hop⟩

/-- However a query is written, its canonical spelling is read as the same query. -/
theorem parse_render_upper : ∃ q, parse "BOOSTER|-word-formation" = .accepted q ∧
    ∃ y, parse q.render = .accepted y ∧ y.outline = q.outline := by
  have h : parse "BOOSTER|-word-formation" = .accepted
      ⟨⟨none, ⟨.booster, .ofLength 0 7⟩, .ofLength 0 7⟩,
        [(⟨.or, .ofLength 7 1⟩,
          ⟨some (.ofLength 8 1), ⟨.wordFormation, .ofLength 9 14⟩, .ofLength 8 15⟩)],
        .ofLength 0 23⟩ := by
    decide +kernel
  exact ⟨_, h, parse_render.2.1 _ _ h⟩

end TagQuery
