import TagQuery.Query.Node

/-!
# Moving spans

The same part of a query, read further to the right: every span in it is moved by a number of
bytes.  The outline stays (`Query.outline_shift`).
-/

namespace TagQuery

/-- The operator moved to the right by `n` bytes. -/
def Operator.shift (n : Nat) (x : Operator) : Operator := ⟨x.op, x.span.shift n⟩

/-- The tag moved to the right by `n` bytes. -/
def TagMatch.shift (n : Nat) (x : TagMatch) : TagMatch := ⟨x.tag, x.span.shift n⟩

/-- The identifier moved to the right by `n` bytes, with all its parts. -/
def Identifier.shift (n : Nat) (x : Identifier) : Identifier :=
  ⟨x.negation.map (Span.shift n), x.tag.shift n, x.span.shift n⟩

/-- The query moved to the right by `n` bytes, with all its parts. -/
def Query.shift (n : Nat) (q : Query) : Query :=
  ⟨q.head.shift n, q.rest.map fun clause => (clause.1.shift n, clause.2.shift n), q.span.shift n⟩

/-- The node moved to the right by `n` bytes, with all its parts. -/
def Node.shift (n : Nat) : Node → Node
  | query q => query (q.shift n)
  | identifier x => identifier (x.shift n)
  | negation s => negation (s.shift n)
  | binaryOp x => binaryOp (x.shift n)
  | tag x => tag (x.shift n)

@[simp] theorem Identifier.operand_shift (n : Nat) (x : Identifier) :
    (x.shift n).operand = x.operand := by
  simp [operand, isNegated, shift, TagMatch.shift]

@[simp] theorem Query.outline_shift (n : Nat) (q : Query) : (q.shift n).outline = q.outline := by
  simp [outline, shift, Operator.shift, Function.comp_def]

@[simp] theorem Node.kind_shift (n : Nat) (x : Node) : (x.shift n).kind = x.kind := by
  cases x <;> rfl

@[simp] theorem Node.span_shift (n : Nat) (x : Node) : (x.shift n).span = x.span.shift n := by
  cases x <;> rfl

end TagQuery
