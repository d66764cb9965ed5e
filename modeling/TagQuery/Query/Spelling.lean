import TagQuery.Query.Outline

/-!
# Spellings of queries

All the ways to write an outline.  A tag may be written in any case of ASCII letters, the `-` of a
negated tag stands right before it, and any number of spaces may stand before and after an
operator.  Nothing else may stand anywhere.

A `QuerySpelling` is one such way with its choices laid open; `QuerySpelling.text` writes it down.
This says what a query looks like without saying how to read one.  Every outline has a spelling,
its canonical one (`QuerySpelling.text_canonical`).
-/

namespace TagQuery

/-- A way to write an operand. -/
structure OperandSpelling where
  negated : Bool
  tag : Tag
  /-- The phrase of the tag as it is written. -/
  word : Text
  spelledBy_word : tag.SpelledBy word

/-- A way to write an operator and the operand after it. -/
structure ClauseSpelling where
  /-- Number of spaces before the operator. -/
  before : Nat
  op : BinaryOp
  /-- Number of spaces after the operator. -/
  after : Nat
  operand : OperandSpelling

/-- A way to write a query. -/
structure QuerySpelling where
  head : OperandSpelling
  clauses : List ClauseSpelling

namespace OperandSpelling

/-- The operand that is written. -/
def operand (x : OperandSpelling) : Operand := ⟨x.negated, x.tag⟩

/-- The operand as it is written. -/
def text (x : OperandSpelling) : Text := (if x.negated then ['-'] else []) ++ x.word

/-- The phrase of the tag itself. -/
def canonical (x : Operand) : OperandSpelling := ⟨x.negated, x.tag, x.tag.phrase.toList, rfl⟩

@[simp] theorem operand_canonical (x : Operand) : (canonical x).operand = x := rfl

theorem text_canonical (x : Operand) : (canonical x).text = x.render.toList := by
  cases x with
  | mk negated tag => cases negated <;> simp [canonical, text, Operand.render]

end OperandSpelling

namespace ClauseSpelling

/-- The operator and the operand that are written. -/
def clause (x : ClauseSpelling) : BinaryOp × Operand := (x.op, x.operand.operand)

/-- The clause as it is written. -/
def text (x : ClauseSpelling) : Text :=
  Text.spaces x.before ++ x.op.symbol.toList ++ Text.spaces x.after ++ x.operand.text

/-- One space on either side of the operator. -/
def canonical (x : BinaryOp × Operand) : ClauseSpelling := ⟨1, x.1, 1, .canonical x.2⟩

@[simp] theorem clause_canonical (x : BinaryOp × Operand) : (canonical x).clause = x := rfl

theorem text_canonical (x : BinaryOp × Operand) :
    (canonical x).text = (Outline.renderClause x).toList := by
  simp [canonical, text, Outline.renderClause, OperandSpelling.text_canonical, Text.spaces]

end ClauseSpelling

namespace QuerySpelling

/-- The outline that is written. -/
def outline (w : QuerySpelling) : Outline :=
  ⟨w.head.operand, w.clauses.map ClauseSpelling.clause⟩

/-- The query as it is written. -/
def text (w : QuerySpelling) : Text := w.head.text ++ w.clauses.flatMap ClauseSpelling.text

/-- The spelling that `Outline.render` gives. -/
def canonical (o : Outline) : QuerySpelling :=
  ⟨.canonical o.head, o.rest.map ClauseSpelling.canonical⟩

@[simp] theorem outline_canonical (o : Outline) : (canonical o).outline = o := by
  simp [canonical, outline, Function.comp_def]

theorem text_canonical (o : Outline) : (canonical o).text = o.render.toList := by
  simp [canonical, text, Outline.render, OperandSpelling.text_canonical,
    ClauseSpelling.text_canonical, List.flatMap_def, Function.comp_def]

end QuerySpelling

end TagQuery
