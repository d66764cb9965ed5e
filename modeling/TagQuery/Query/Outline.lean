import TagQuery.Vocabulary

/-!
# Outlines of queries

An outline is what a query says, apart from how and where it is written: tags, each negated or
not, joined by the operators `|` and `&`.  The operators have no priority over each other, so an
outline is its first operand followed by pairs of an operator and an operand.

`Outline.render` writes an outline in its canonical spelling.
-/

namespace TagQuery

/-- The two ways to join operands. -/
inductive BinaryOp where
  | or
  | and
deriving DecidableEq, Repr

namespace BinaryOp

/-- The operator as written in a query. -/
def symbol : BinaryOp → String
  | or => "|"
  | and => "&"

/-- The operator in words. -/
def name : BinaryOp → String
  | or => "or"
  | and => "and"

instance : ToString BinaryOp := ⟨symbol⟩

/-- Both operators, in the order in which their symbols are tried. -/
def all : List BinaryOp := [or, and]

end BinaryOp

/-- A tag, negated or not. -/
structure Operand where
  negated : Bool
  tag : Tag
deriving DecidableEq, Repr

/-- The operands of a query and the operators between them, from left to right. -/
structure Outline where
  head : Operand
  rest : List (BinaryOp × Operand)
deriving DecidableEq, Repr

/-- The canonical spelling: the phrase of the tag, after a `-` if it is negated. -/
def Operand.render (x : Operand) : String := (if x.negated then "-" else "") ++ x.tag.phrase

namespace Outline

/-- An operator and the operand after it, each with one space before it. -/
def renderClause (clause : BinaryOp × Operand) : String :=
  " " ++ clause.1.symbol ++ " " ++ clause.2.render

/-- The canonical spelling: one space on either side of each operator and no other. -/
def render (o : Outline) : String := o.head.render ++ String.join (o.rest.map renderClause)

end Outline

end TagQuery
