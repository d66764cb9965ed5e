import TagQuery.Vocabulary

/-!
# Rules of the grammar

The named rules.  A rule names itself in diagnostics, and the outcome of a rule at an offset is
what a memo table stores.

```text
query                    = id (" "* BinOp " "* id)*
id                       = NEG? ID
NEG                      = "-"
BinOp                    = "|" / "&"
ID                       = contemporary_meaning / synt_function_of_anchor
contemporary_meaning     = the phrases of the one category
synt_function_of_anchor  = the phrases of the other
```
-/

namespace TagQuery

/-- The named rules of the grammar. -/
inductive Rule where
  | query
  | identifier
  | negation
  | binaryOp
  | tag
  | contemporaryMeaning
  | syntacticFunction
deriving DecidableEq, Repr

namespace Rule

/-- Every rule, the top rule first. -/
def all : List Rule :=
  [query, identifier, negation, binaryOp, tag, contemporaryMeaning, syntacticFunction]

theorem mem_all (rule : Rule) : rule ∈ all := by cases rule <;> decide

/-- The place of a rule in `Rule.all`. -/
def index : Rule → Nat
  | query => 0
  | identifier => 1
  | negation => 2
  | binaryOp => 3
  | tag => 4
  | contemporaryMeaning => 5
  | syntacticFunction => 6

theorem index_inj {r s : Rule} : r.index = s.index ↔ r = s :=
  ⟨by cases r <;> cases s <;> simp [index], congrArg index⟩

/-- Rules are ordered as in `Rule.all`. -/
instance : Ord Rule := ⟨fun r s => compare r.index s.index⟩

/-- The name of a rule in the grammar. -/
def name : Rule → String
  | query => "query"
  | identifier => "id"
  | negation => "NEG"
  | binaryOp => "BinOp"
  | tag => "ID"
  | contemporaryMeaning => "contemporary_meaning"
  | syntacticFunction => "synt_function_of_anchor"

/-- The name of the grammar, which stands before the names of its rules. -/
def grammarName : String := "LogicQuery"

/-- The name of a rule with that of the grammar. -/
def qualifiedName (rule : Rule) : String := grammarName ++ "::" ++ rule.name

instance : ToString Rule := ⟨qualifiedName⟩

end Rule

namespace Category

/-- The rule that reads a phrase of the category. -/
def rule : Category → Rule
  | contemporaryMeaning => .contemporaryMeaning
  | syntacticFunction => .syntacticFunction

/-- The name under which a search form lists the category. -/
def fieldName : Category → String
  | contemporaryMeaning => "contemporary_meaning"
  | syntacticFunction => "synt_function_of_anchor"

end Category

end TagQuery
