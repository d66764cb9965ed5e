import TagQuery.Query.Outline
import TagQuery.Text.Span

/-!
# Queries

A query as it was read from a text: an identifier, which is a tag with or without a `-`, followed
by pairs of an operator and an identifier.  Every part keeps the span that it was read from;
`Query.outline` forgets the spans.
-/

namespace TagQuery

/-- An operator read from a text. -/
structure Operator where
  op : BinaryOp
  span : Span
deriving DecidableEq, Repr

/-- A tag read from a text. -/
structure TagMatch where
  tag : Tag
  span : Span
deriving DecidableEq, Repr

/-- A tag, negated or not, read from a text. -/
structure Identifier where
  /-- Where the `-` of a negated tag stands. -/
  negation : Option Span
  tag : TagMatch
  span : Span
deriving DecidableEq, Repr

/-- A query read from a text. -/
structure Query where
  head : Identifier
  /-- The operators with the identifiers that follow them, from left to right. -/
  rest : List (Operator × Identifier)
  span : Span
deriving DecidableEq, Repr

namespace Identifier

/-- The identifier of a tag and the `-` before it: it begins with the `-`, or else with the tag,
and ends with the tag.  There is none if it would end before it begins. -/
def new? (negation : Option Span) (tag : TagMatch) : Option Identifier :=
  (Span.new? ((negation.getD tag.span).start) tag.span.stop).map (⟨negation, tag, ·⟩)

/-- The identifier has a `-`. -/
def isNegated (x : Identifier) : Bool := x.negation.isSome

/-- The identifier without its spans. -/
def operand (x : Identifier) : Operand := ⟨x.isNegated, x.tag.tag⟩

/-- The canonical spelling of an identifier. -/
def render (x : Identifier) : String := x.operand.render

instance : ToString Identifier := ⟨render⟩

end Identifier

namespace Query

/-- Number of identifiers. -/
def size (q : Query) : Nat := q.rest.length + 1

/-- The identifiers from left to right. -/
def identifiers (q : Query) : List Identifier := q.head :: q.rest.map (·.2)

/-- The operators from left to right. -/
def operators (q : Query) : List BinaryOp := q.rest.map (·.1.op)

@[simp] theorem length_identifiers (q : Query) : q.identifiers.length = q.size := by
  simp [identifiers, size]

@[simp] theorem length_operators (q : Query) : q.operators.length + 1 = q.size := by
  simp [operators, size]

/-- The query without its spans. -/
def outline (q : Query) : Outline :=
  ⟨q.head.operand, q.rest.map fun clause => (clause.1.op, clause.2.operand)⟩

/-- The canonical spelling of a query. -/
def render (q : Query) : String := q.outline.render

instance : ToString Query := ⟨render⟩

end Query

end TagQuery
