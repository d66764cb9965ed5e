import TagQuery.Query.Basic

/-!
# Nodes

A node is any part of a query, with its kind told apart at run time.  `Fragment` collects the
types of parts: each of them embeds into nodes, and `Fragment.ofNode?_eq_some_iff` says that
reading a node back gives exactly what was put in.
-/

namespace TagQuery

/-- The kinds of nodes. -/
inductive NodeKind where
  | query
  | identifier
  | negation
  | binaryOp
  | tag
deriving DecidableEq, Repr

/-- Any part of a query. -/
inductive Node where
  | query (query : Query)
  | identifier (identifier : Identifier)
  /-- A `-`, of which only the place is known. -/
  | negation (span : Span)
  | binaryOp (operator : Operator)
  | tag (tag : TagMatch)
deriving DecidableEq, Repr

namespace Node

/-- The kind of a node. -/
def kind : Node → NodeKind
  | query _ => .query
  | identifier _ => .identifier
  | negation _ => .negation
  | binaryOp _ => .binaryOp
  | tag _ => .tag

/-- Where a node was read from. -/
def span : Node → Span
  | query q => q.span
  | identifier x => x.span
  | negation s => s
  | binaryOp x => x.span
  | tag x => x.span

end Node

/-- The types of the parts of a query, as types of nodes. -/
class Fragment (α : Type) where
  /-- The part as a node. -/
  toNode : α → Node
  /-- The part that a node is, if it is one of this type. -/
  ofNode? : Node → Option α
  ofNode?_eq_some_iff {n : Node} {a : α} : ofNode? n = some a ↔ n = toNode a

namespace Fragment

@[simp] theorem ofNode?_toNode {α : Type} [Fragment α] (a : α) :
    ofNode? (toNode a) = some a := ofNode?_eq_some_iff.2 rfl

instance : Fragment Query where
  toNode := .query
  ofNode?
    | .query q => some q
    | _ => none
  ofNode?_eq_some_iff {n _} := by cases n <;> simp

instance : Fragment Identifier where
  toNode := .identifier
  ofNode?
    | .identifier x => some x
    | _ => none
  ofNode?_eq_some_iff {n _} := by cases n <;> simp

instance : Fragment Span where
  toNode := .negation
  ofNode?
    | .negation s => some s
    | _ => none
  ofNode?_eq_some_iff {n _} := by cases n <;> simp

instance : Fragment Operator where
  toNode := .binaryOp
  ofNode?
    | .binaryOp x => some x
    | _ => none
  ofNode?_eq_some_iff {n _} := by cases n <;> simp

instance : Fragment TagMatch where
  toNode := .tag
  ofNode?
    | .tag x => some x
    | _ => none
  ofNode?_eq_some_iff {n _} := by cases n <;> simp

/-- The nodes of one kind. -/
instance (kind : NodeKind) : Fragment { n : Node // n.kind = kind } where
  toNode := Subtype.val
  ofNode? n := if h : n.kind = kind then some ⟨n, h⟩ else none
  ofNode?_eq_some_iff {n a} := by
    split
    · simp [Subtype.ext_iff]
    · rename_i h
      simp only [reduceCtorEq, false_iff]
      rintro rfl
      exact h a.2

end Fragment

end TagQuery
