import TagQuery.Grammar.Rules

/-!
# Parsing expressions

Expressions over the terminals, the rules and the combinators, and their evaluation as parsing
actions.  With them a parser can be asked for more than its own rules.
-/

namespace TagQuery

/-- A parsing expression. -/
inductive Expr where
  /-- The text itself, asked for by a rule. -/
  | literal (rule : Rule) (text : String)
  /-- The text in any case of ASCII letters, asked for by a rule. -/
  | phrase (rule : Rule) (text : String)
  /-- What a rule of the grammar reads. -/
  | rule (rule : Rule)
  /-- The parts one after the other, without rewinding when one of them fails. -/
  | chain (parts : List Expr)
  /-- The parts one after the other, rewinding when one of them fails. -/
  | seq (parts : List Expr)
  /-- The first part that matches. -/
  | choice (parts : List Expr)
  /-- As many times as it goes. -/
  | many (part : Expr)
  /-- Once or not at all. -/
  | opt (part : Expr)
  /-- The node of some kind that the part reads, memoized for a rule. -/
  | memo (rule : Rule) (kind : NodeKind) (part : Expr)
  /-- Nothing, which always matches. -/
  | empty
  /-- What never matches. -/
  | fail
  /-- The cursor moved to an offset. -/
  | moveTo (offset : Nat)
deriving Repr

/-- What a parsing expression matches with. -/
inductive Value where
  | node (node : Node)
  | list (values : List Value)
  /-- An option that is not there. -/
  | absent
  | empty
  /-- The cursor has been moved. -/
  | moved
deriving Repr

/-- The node of a kind that a value is. -/
def Value.ofKind? (kind : NodeKind) : Value → Option { n : Node // n.kind = kind }
  | node n => Fragment.ofNode? n
  | _ => none

namespace Expr

mutual

/-- The action of an expression. -/
def eval : Expr → Action Value
  | .literal r text => (fun span => .node (.negation span)) <$> Action.literal r text
  | .phrase r text => (fun span => .node (.negation span)) <$> Action.phrase r text
  | .rule r => .node <$> r.action
  | .chain parts => .list <$> Action.chain (evalAll parts)
  | .seq parts => .list <$> Action.sequence (Action.chain (evalAll parts))
  | .choice parts => Action.choice (evalAll parts)
  | .many part => .list <$> Action.many part.eval
  | .opt part => (fun value => value.getD .absent) <$> Action.optional part.eval
  | .memo r kind part =>
    (fun n => .node n.val) <$> Action.memoized r do
      let value ← part.eval
      Action.ofOption (value.ofKind? kind)
  | .empty => pure .empty
  | .fail => Action.fail
  | .moveTo offset => (fun _ => .moved) <$> Action.moveTo offset

/-- The actions of expressions. -/
def evalAll : List Expr → List (Action Value)
  | [] => []
  | part :: parts => part.eval :: evalAll parts

end

mutual

/-- Number of parts of an expression that move the cursor to an offset of their own. -/
def moves : Expr → Nat
  | .chain parts | .seq parts | .choice parts => movesAll parts
  | .many part | .opt part | .memo _ _ part => part.moves
  | .moveTo _ => 1
  | .literal .. | .phrase .. | .rule _ | .empty | .fail => 0

/-- Number of parts of expressions that move the cursor to an offset of their own. -/
def movesAll : List Expr → Nat
  | [] => 0
  | part :: parts => part.moves + movesAll parts

end

end Expr

end TagQuery
