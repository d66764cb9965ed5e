import TagQuery.Packrat.Combinators

/-!
# The rules of the grammar as parsing actions

One action per rule of `Rule`.  Every named rule is memoized, so a rule tried again at the same
offset is answered from the memo table.

Symbols of operators are read by a table of their own (`Grammar.operators`), which has to agree with
the symbols that queries are written with (`Grammar.operators_eq`).
-/

namespace TagQuery

namespace Grammar

open TagQuery.Action

/-- A `-`. -/
def negation : Action Span := memoized .negation (literal .negation "-")

/-- The symbols that are tried, one after the other, each with the operator that it stands for. -/
def operators : List (String × BinaryOp) := [("|", .or), ("&", .and)]

/-- The symbol of one operator. -/
def operatorOf (row : String × BinaryOp) : Action Operator :=
  (fun span => ⟨row.2, span⟩) <$> literal .binaryOp row.1

/-- The symbol of any operator. -/
def binaryOp : Action Operator := memoized .binaryOp (choice (operators.map operatorOf))

/-- The phrase of one tag. -/
def tagOf (tag : Tag) : Action TagMatch :=
  (fun span => ⟨tag, span⟩) <$> phrase tag.category.rule tag.phrase

/-- A phrase of one category. -/
def category (category : Category) : Action TagMatch :=
  memoized category.rule (choice (category.tags.map tagOf))

/-- A phrase of any category. -/
def tag : Action TagMatch := memoized .tag (choice (Category.all.map category))

/-- A tag with or without a `-` before it. -/
def identifier : Action Identifier :=
  memoized .identifier <| sequence do
    let negation ← optional negation
    let tag ← tag
    orStuck .reversedSpan (Identifier.new? negation tag)

/-- Any number of spaces, which a query asks for. -/
def spaces : Action Unit := (fun _ => ()) <$> many (literal .query " ")

/-- An operator and the identifier after it, with any spaces before each of them. -/
def clause : Action (Operator × Identifier) :=
  sequence do
    spaces
    let op ← binaryOp
    spaces
    let identifier ← identifier
    return (op, identifier)

/-- A query: an identifier and any number of clauses. -/
def query : Action Query :=
  memoized .query <| sequence do
    let start ← cursor
    let head ← identifier
    let rest ← many clause
    let stop ← cursor
    let span ← orStuck .reversedSpan (Span.ofOffsets? start stop)
    return ⟨head, rest, span⟩

theorem operators_eq : operators = BinaryOp.all.map fun op => (op.symbol, op) := rfl

end Grammar

/-- The action of a rule, with what it reads as a node. -/
def Rule.action : Rule → Action Node
  | query => Node.query <$> Grammar.query
  | identifier => Node.identifier <$> Grammar.identifier
  | negation => Node.negation <$> Grammar.negation
  | binaryOp => Node.binaryOp <$> Grammar.binaryOp
  | tag => Node.tag <$> Grammar.tag
  | contemporaryMeaning => Node.tag <$> Grammar.category .contemporaryMeaning
  | syntacticFunction => Node.tag <$> Grammar.category .syntacticFunction

/-- The kind of the nodes that a rule reads. -/
def Rule.nodeKind : Rule → NodeKind
  | query => .query
  | identifier => .identifier
  | negation => .negation
  | binaryOp => .binaryOp
  | tag | contemporaryMeaning | syntacticFunction => .tag

end TagQuery
